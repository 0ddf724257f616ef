import Dietlibc.Dirs.Readdir
import Dietlibc.Sort.Pointers
import Dietlibc.Strings.ByteSearch

/-!
# `scandir`

The listing is what the calls of `readdir` return. Blocks have numbers, which are not used again, and a
pointer to a block is its number. The allocator decides for each selected entry whether `realloc` fails,
leaves the vector where it is or moves it, whether `malloc` fails, and what is in the block it gives. An
access to a block that was freed, `free` included, is a fault, `none`.
-/

namespace Dietlibc.Dirs

open CInt

/-- What `realloc` does. -/
inductive Realloc where
  | fails
  | stays
  | moves
  deriving DecidableEq

/-- What the allocator does for an entry: `malloc` gives a block with these contents. -/
structure Grant where
  realloc : Realloc
  malloc : Bool
  garbage : Dirent

/-- The blocks: the number of the next one, those in use, those that `malloc` gave for the entries in
their order, and the contents of vectors and entries. -/
structure Heap where
  next : Nat
  live : List Nat
  made : List Nat
  slots : Nat → Nat → Nat
  ents : Nat → Dirent

namespace Heap

def free (h : Heap) (p : Nat) : Option Heap :=
  if p = 0 then some h else if p ∈ h.live then some { h with live := h.live.erase p } else none

/-- `realloc` of a vector. -/
def realloc (h : Heap) (p : Nat) (a : Realloc) : Option (Nat × Heap) :=
  if p ≠ 0 ∧ p ∉ h.live then none
  else if a = .fails then some (0, h)
  else if a = .stays ∧ p ≠ 0 then some (p, h)
  else
    some (h.next, { h with
      next := h.next + 1
      live := h.next :: h.live.erase p
      slots := Function.update h.slots h.next (h.slots p) })

/-- `reallocarray` with elements of eight bytes. -/
def reallocarray (h : Heap) (p nmemb : Nat) (a : Realloc) : Option (Nat × Heap) :=
  if 2 ^ 64 ≤ nmemb * 8 then some (0, h) else h.realloc p a

/-- `malloc(sizeof(struct dirent))` -/
def malloc (h : Heap) (g : Grant) : Nat × Heap :=
  if g.malloc then
    (h.next, { h with
      next := h.next + 1
      live := h.next :: h.live
      made := h.made ++ [h.next]
      ents := Function.update h.ents h.next g.garbage })
  else (0, h)

/-- `v[i]=p` -/
def setSlot (h : Heap) (v i p : Nat) : Heap :=
  { h with slots := Function.update h.slots v (Function.update (h.slots v) i p) }

end Heap

/-- `*namelist`, `num` and the blocks. -/
structure Progress where
  namelist : Nat
  num : Nat
  heap : Heap

/-- `for (i=0; i<num; ++i) free((*namelist)[i]); free(*namelist);` -/
def giveUp (namelist num : Nat) (h : Heap) : Option Heap :=
  ((List.range num).foldlM (fun h i =>
    if namelist ∈ h.live then h.free (h.slots namelist i) else none) h).bind fun h => h.free namelist

/-- What is copied of an entry: 255 bytes of the name at most, the offset and the length. -/
def filled (signed : Bool) (g D : Dirent) : Option Dirent :=
  (Strings.memccpy signed 0 0 D.d_name 255 fun i => g.d_name.getD i 0).map fun r =>
    { g with d_name := r.2.load 0 256, d_off := D.d_off, d_reclen := D.d_reclen }

/-- A selected entry: what goes on, or the blocks when scandir returns -1. -/
def scandirTurn (signed : Bool) (g : Grant) (D : Dirent) (s : Progress) : Option (Progress ⊕ Heap) := do
  let (tmp, h) ← s.heap.reallocarray s.namelist (s.num + 1) g.realloc
  if tmp = 0 then (giveUp s.namelist s.num h).map .inr
  else
    let (p, h) := h.malloc g
    let h := h.setSlot tmp s.num p
    if p = 0 then (giveUp s.namelist s.num h).map .inr
    else
      let d ← filled signed (h.ents p) D
      some (.inl ⟨tmp, s.num + 1, { h with ents := Function.update h.ents p d }⟩)

/-- `while ((D=readdir(d)))` -/
def scandirLoop (signed : Bool) (select : Option (Dirent → Bool)) (grants : Nat → Grant) :
    List Dirent → Progress → Option (Progress ⊕ Heap)
  | [], s => some (.inl s)
  | D :: ds, s =>
    if select.all (· D) then
      (scandirTurn signed (grants s.num) D s).bind fun r =>
        r.elim (scandirLoop signed select grants ds) fun h => some (.inr h)
    else scandirLoop signed select grants ds s

/-- What `scandir` returns, and `*namelist` and the blocks then. -/
structure Scanned where
  ret : Int
  namelist : Nat
  heap : Heap

/-- `qsort(*namelist,num,sizeof(struct dirent*),compar)`, if there is a comparator. -/
def sortNames {σ : Type} (compar : Option (Dirent → Dirent → Int)) (rand : σ → Nat × σ) (seed : σ)
    (s : Progress) : Option Heap :=
  match compar with
  | none => some s.heap
  | some c =>
    match Sort.qsortPointers (fun p q => c (s.heap.ents p) (s.heap.ents q)) rand s.num
      (s.heap.slots s.namelist) seed with
    | .error _ => none
    | .ok (f, _) => some { s.heap with slots := Function.update s.heap.slots s.namelist f }

/-- `scandir`, behind `opendir`. -/
def scandir {σ : Type} (signed : Bool) (select : Option (Dirent → Bool))
    (compar : Option (Dirent → Dirent → Int)) (rand : σ → Nat × σ) (seed : σ) (grants : Nat → Grant)
    (listing : List Dirent) (slots : Nat → Nat → Nat) (ents : Nat → Dirent) : Option Scanned := do
  match ← scandirLoop signed select grants listing ⟨0, 0, ⟨1, [], [], slots, ents⟩⟩ with
  | .inr h => some ⟨-1, 0, h⟩
  | .inl s => (sortNames compar rand seed s).map fun h => ⟨conv 32 s.num, s.namelist, h⟩

/-! ## What the claim is about -/

/-- The name up to its NUL. -/
def nameOf (D : Dirent) : List UInt8 := D.d_name.takeWhile (· ≠ 0)

/-- A block has the name of the entry, with a NUL, and its numbers. -/
structure Describes (d D : Dirent) : Prop where
  name : 0 ∈ d.d_name ∧ nameOf d = nameOf D
  ino : d.d_ino = D.d_ino
  off : d.d_off = D.d_off
  reclen : d.d_reclen = D.d_reclen
  type : d.d_type = D.d_type

/-- The blocks that were made for the entries are different ones, in use and describe them, and the
vector points to them, in order if there is a comparator. -/
structure Collects (r : Scanned) (entries : List Dirent) (compar : Option (Dirent → Dirent → Int)) :
    Prop where
  count : r.ret = entries.length
  distinct : r.heap.made.Nodup
  live : ∀ p ∈ r.heap.made, p ∈ r.heap.live
  describes : List.Forall₂ (fun p D => Describes (r.heap.ents p) D) r.heap.made entries
  vector : 0 < entries.length → r.namelist ∈ r.heap.live
  pointers : ((List.range entries.length).map (r.heap.slots r.namelist)).Perm r.heap.made
  sorted : ∀ c ∈ compar, ∀ i j, i ≤ j → j < entries.length →
    c (r.heap.ents (r.heap.slots r.namelist i)) (r.heap.ents (r.heap.slots r.namelist j)) ≤ 0

/-- `scandir` returns the selection, or has freed every block. -/
def ScandirRight (entries : List Dirent) (compar : Option (Dirent → Dirent → Int))
    (r : Option Scanned) : Prop :=
  ∃ s, r = some s ∧ (0 ≤ s.ret → Collects s entries compar) ∧ (s.ret = -1 → s.heap.live = [])

/-- An entry of a directory: a name of 255 bytes at most, with its NUL. -/
def Entry (D : Dirent) : Prop := 0 ∈ D.d_name ∧ (nameOf D).length ≤ 255

/-- A comparator that is a total preorder, by the sign of what it returns. -/
structure Orders (c : Dirent → Dirent → Int) : Prop where
  flip : ∀ x y, c x y < 0 ↔ 0 < c y x
  trans : ∀ x y z, c x y ≤ 0 → c y z ≤ 0 → c x z ≤ 0

/-! ## When it does -/

/-- There is no vector for the entry with this number. -/
def VectorFails (grants : Nat → Grant) (k : Nat) : Prop :=
  2 ^ 64 ≤ (k + 1) * 8 ∨ (grants k).realloc = .fails

/-- There is no vector for the entry, or no block. -/
def Fails (grants : Nat → Grant) (k : Nat) : Prop := VectorFails grants k ∨ (grants k).malloc = false

/-- What `malloc` gave for an entry has its inode and its type already, and a NUL behind a name of 255
bytes. -/
def Lucky (g D : Dirent) : Prop :=
  g.d_ino = D.d_ino ∧ g.d_type = D.d_type ∧ ((nameOf D).length = 255 → g.d_name.getD 255 0 = 0)

/-- Where an allocation fails, it is the vector, or the vector has stayed where it was. Where none does,
the blocks are lucky and an `int` holds their number, or takes it for a negative one other than -1. -/
structure ScandirFits (grants : Nat → Grant) (entries : List Dirent) : Prop where
  failed : ∀ k < entries.length, Fails grants k → (∀ j < k, ¬Fails grants j) →
    VectorFails grants k ∨ (0 < k ∧ (grants k).realloc = .stays)
  done : (∀ k < entries.length, ¬Fails grants k) →
    (2 ^ 31 ≤ entries.length % 2 ^ 32 ∧ entries.length % 2 ^ 32 < 2 ^ 32 - 1) ∨
      (entries.length < 2 ^ 31 ∧ ∀ k D, entries[k]? = some D → Lucky (grants k).garbage D)

section

variable {signed : Bool} {grants : Nat → Grant} {s : Progress} {l listing : List Dirent} {g D : Dirent}
  {h : Heap} {v k : Nat} {made : List Nat} {select : Option (Dirent → Bool)}

/-! ## The copy of an entry -/

theorem Entry.split (hD : Entry D) : 0 ∉ nameOf D ∧ ∃ w, D.d_name = nameOf D ++ 0 :: w := by
  obtain ⟨u, w, hsplit, hu⟩ := List.eq_append_cons_of_mem hD.1
  have hpos : ∀ b ∈ u, decide (b ≠ 0) = true := fun b hb => decide_eq_true fun h => hu (h ▸ hb)
  have hname : nameOf D = u := by
    rw [nameOf, hsplit, List.takeWhile_append_of_pos hpos, List.takeWhile_cons_of_neg (by simp),
      List.append_nil]
  rw [hname]
  exact ⟨hu, w, hsplit⟩

/-- The copy describes the entry exactly if the block it is in is lucky. -/
theorem filled_eq (signed : Bool) (g : Dirent) (hD : Entry D) :
    ∃ d, filled signed g D = some d ∧ (Describes d D ↔ Lucky g D) := by
  obtain ⟨hname, w, hsplit⟩ := hD.split
  let m : Mem := fun i => g.d_name.getD i 0
  have hlen := hD.2
  rcases Nat.lt_or_ge (nameOf D).length 255 with hlt | hge
  · have hcopy : filled signed g D = some { g with
        d_name := (m.store 0 (nameOf D ++ [0])).load 0 256
        d_off := D.d_off
        d_reclen := D.d_reclen } := by
      rw [filled, hsplit, Strings.memccpy_whole hname hlt]
      rfl
    obtain ⟨hmem, htake⟩ := Mem.takeWhile_load (m := m.store 0 (nameOf D ++ [0])) (a := 0) (n := 256)
      hname (by omega) (Mem.load_store_self (by rw [List.length_append, List.length_singleton]))
    refine ⟨_, hcopy, fun h => ⟨h.ino, h.type, fun h255 => absurd h255 (by omega)⟩, fun h => ?_⟩
    exact ⟨⟨hmem, htake⟩, h.1, rfl, rfl, h.2.1⟩
  · have h255 : (nameOf D).length = 255 := by omega
    have hcopy : filled signed g D = some { g with
        d_name := (m.store 0 (nameOf D)).load 0 256
        d_off := D.d_off
        d_reclen := D.d_reclen } := by
      rw [filled, hsplit, Strings.memccpy_cut hname hge, List.take_of_length_le (by omega)]
      rfl
    have hload : (m.store 0 (nameOf D)).load 0 256 = nameOf D ++ [g.d_name.getD 255 0] := by
      rw [Mem.load_succ, Mem.load_store_self h255, Mem.store_out (by omega)]
    refine ⟨_, hcopy, fun h => ⟨h.ino, h.type, fun _ => ?_⟩, fun h => ?_⟩
    · have hnul := h.name.1
      rw [hload, List.mem_append, List.mem_singleton] at hnul
      exact (hnul.resolve_left hname).symm
    · rw [h.2.2 h255] at hload
      obtain ⟨hmem, htake⟩ := Mem.takeWhile_load (m := m.store 0 (nameOf D)) (a := 0) (n := 256) hname
        (by omega) (by rw [h255]; exact hload)
      exact ⟨⟨hmem, htake⟩, h.1, rfl, rfl, h.2.1⟩

/-! ## Giving up -/

/-- Where the vector is in use, everything is freed. -/
theorem giveUp_eq (hv : 0 < v) (hpos : ∀ p ∈ made, 0 < p) (hnodup : (v :: made).Nodup)
    (hlive : h.live.Perm (v :: made)) (hslots : ∀ i p, made[i]? = some p → h.slots v i = p) :
    ∃ h', giveUp v made.length h = some h' ∧ h'.live = [] := by
  have hloop : ∀ k ≤ made.length, ∃ h', (List.range k).foldlM (fun (h : Heap) i =>
      if v ∈ h.live then h.free (h.slots v i) else none) h = some h' ∧
        h'.live.Perm (v :: made.drop k) ∧ h'.slots = h.slots := by
    intro k hk
    induction k with
    | zero => exact ⟨h, rfl, hlive, rfl⟩
    | succ k ih =>
      obtain ⟨h', hrun, hperm, hsame⟩ := ih (by omega)
      have hk' : k < made.length := hk
      have hslot : h'.slots v k = made[k] := by
        rw [hsame]
        exact hslots k _ (List.getElem?_eq_getElem hk')
      have hdrop : made.drop k = made[k] :: made.drop (k + 1) := List.drop_eq_getElem_cons hk'
      have hne : v ≠ made[k] := fun he =>
        (List.nodup_cons.mp hnodup).1 (he ▸ List.getElem_mem hk')
      have hp := hpos _ (List.getElem_mem hk')
      have hmem : made[k] ∈ h'.live := hperm.mem_iff.mpr (by
        rw [hdrop]
        exact List.mem_cons_of_mem _ List.mem_cons_self)
      refine ⟨{ h' with live := h'.live.erase made[k] }, ?_, ?_, hsame⟩
      · rw [List.range_succ, List.foldlM_append, hrun]
        have hin : v ∈ h'.live := hperm.mem_iff.mpr List.mem_cons_self
        have hfree : h'.free (h'.slots v k) = some { h' with live := h'.live.erase made[k] } := by
          rw [hslot, Heap.free, if_neg (by omega), if_pos hmem]
        simp only [Option.bind_eq_bind, Option.bind_some, List.foldlM_cons, List.foldlM_nil,
          if_pos hin, hfree]
        rfl
      · have herase := hperm.erase made[k]
        rwa [hdrop, List.erase_cons_tail (by simpa using hne), List.erase_cons_head] at herase
  obtain ⟨h', hrun, hperm, -⟩ := hloop made.length (Nat.le_refl _)
  rw [List.drop_length] at hperm
  have hlive' : h'.live = [v] := List.perm_singleton.mp hperm
  refine ⟨{ h' with live := [] }, ?_, rfl⟩
  rw [giveUp, hrun, Option.bind_some, Heap.free, if_neg (by omega), hlive',
    if_pos (List.mem_singleton.mpr rfl), List.erase_cons_head]

/-- Without a vector nothing is freed. -/
theorem giveUp_none (h : Heap) : giveUp 0 0 h = some h := rfl

/-- Where the vector was moved, it is read when it is no longer in use. -/
theorem giveUp_moved (hv : v ∉ h.live) (hk : 0 < k) : giveUp v k h = none := by
  obtain ⟨n, rfl⟩ : ∃ n, k = n + 1 := ⟨k - 1, by omega⟩
  rw [giveUp, List.range_succ_eq_map, List.foldlM_cons, if_neg hv]
  rfl

/-! ## One entry -/

/-- Where the loop is behind the entries `l`: each has a block with its copy, and the vector points to
these. -/
structure Going (signed : Bool) (grants : Nat → Grant) (s : Progress) (l : List Dirent) : Prop where
  num : s.num = l.length
  room : s.num * 8 < 2 ^ 64
  next : s.heap.next ≤ 2 * s.num + 1
  length : s.heap.made.length = s.num
  lt : ∀ p ∈ s.namelist :: s.heap.made, p < s.heap.next
  pos : ∀ p ∈ s.heap.made, 0 < p
  start : s.num = 0 → s.namelist = 0 ∧ s.heap.live = []
  live : 0 < s.num → 0 < s.namelist ∧ s.heap.live.Perm (s.namelist :: s.heap.made)
  nodup : (s.namelist :: s.heap.made).Nodup
  slots : ∀ i p, s.heap.made[i]? = some p → s.heap.slots s.namelist i = p
  ents : ∀ i p D, s.heap.made[i]? = some p → l[i]? = some D →
    filled signed (grants i).garbage D = some (s.heap.ents p)

theorem going_start (signed : Bool) (grants : Nat → Grant) (slots : Nat → Nat → Nat)
    (ents : Nat → Dirent) : Going signed grants ⟨0, 0, ⟨1, [], [], slots, ents⟩⟩ [] where
  num := rfl
  room := Nat.zero_lt_succ _
  next := Nat.le_refl 1
  length := rfl
  lt _ hp := by
    rw [List.mem_singleton.mp hp]
    exact Nat.one_pos
  pos _ hp := absurd hp List.not_mem_nil
  start _ := ⟨rfl, rfl⟩
  live hnum := absurd hnum (Nat.lt_irrefl 0)
  nodup := List.nodup_singleton 0
  slots _ _ hp := nomatch hp
  ents _ _ _ hp := nomatch hp

/-- The vector `v` has room for one entry more, and nothing else changed. -/
structure Grown (s : Progress) (v : Nat) (h : Heap) : Prop where
  pos : 0 < v
  next : h.next ≤ 2 * s.num + 2
  lt : ∀ p ∈ v :: s.heap.made, p < h.next
  live : h.live.Perm (v :: s.heap.made)
  nodup : (v :: s.heap.made).Nodup
  made : h.made = s.heap.made
  ents : h.ents = s.heap.ents
  slots : h.slots v = s.heap.slots s.namelist

theorem reallocarray_fails (hg : Going signed grants s l) (hf : VectorFails grants s.num) :
    s.heap.reallocarray s.namelist (s.num + 1) (grants s.num).realloc = some (0, s.heap) := by
  have hin : ¬(s.namelist ≠ 0 ∧ s.namelist ∉ s.heap.live) := by
    rintro ⟨hne, hout⟩
    rcases Nat.eq_zero_or_pos s.num with h0 | hpos
    · exact hne (hg.start h0).1
    · exact hout ((hg.live hpos).2.mem_iff.mpr List.mem_cons_self)
  unfold Heap.reallocarray
  split
  · rfl
  · rw [Heap.realloc, if_neg hin, if_pos (hf.resolve_left ‹_›)]

/-- The vector stays where it was, or a new one takes its place. -/
theorem reallocarray_grows (hg : Going signed grants s l) (hf : ¬VectorFails grants s.num) :
    ∃ v h, s.heap.reallocarray s.namelist (s.num + 1) (grants s.num).realloc = some (v, h) ∧
      Grown s v h ∧
      (0 < s.num ∧ (grants s.num).realloc = .stays → v = s.namelist) ∧
      (0 < s.num → (grants s.num).realloc ≠ .stays → s.namelist ∉ h.live) := by
  obtain ⟨hroom, hfails⟩ := not_or.mp hf
  have hin : ¬(s.namelist ≠ 0 ∧ s.namelist ∉ s.heap.live) := by
    rintro ⟨hne, hout⟩
    rcases Nat.eq_zero_or_pos s.num with h0 | hpos
    · exact hne (hg.start h0).1
    · exact hout ((hg.live hpos).2.mem_iff.mpr List.mem_cons_self)
  rw [Heap.reallocarray, if_neg hroom, Heap.realloc, if_neg hin, if_neg hfails]
  have hnum := hg.next
  by_cases hstays : (grants s.num).realloc = .stays ∧ s.namelist ≠ 0
  · have hpos : 0 < s.num := by
      by_contra h0
      exact hstays.2 (hg.start (by omega)).1
    rw [if_pos hstays]
    exact ⟨_, _, rfl, ⟨(hg.live hpos).1, by omega, hg.lt, (hg.live hpos).2, hg.nodup, rfl, rfl, rfl⟩,
      fun _ => rfl, fun _ hne => absurd hstays.1 hne⟩
  · rw [if_neg hstays]
    have hnew : s.heap.next ∉ s.namelist :: s.heap.made := fun hm => Nat.lt_irrefl _ (hg.lt _ hm)
    have hmade : (s.heap.live.erase s.namelist).Perm s.heap.made := by
      rcases Nat.eq_zero_or_pos s.num with h0 | hpos
      · have hnil : s.heap.made = [] := List.length_eq_zero_iff.mp (hg.length.trans h0)
        rw [(hg.start h0).2, hnil]
        exact .refl _
      · have herase := (hg.live hpos).2.erase s.namelist
        rwa [List.erase_cons_head] at herase
    have hlt := hg.lt s.namelist List.mem_cons_self
    refine ⟨_, _, rfl, ⟨by omega, by dsimp only; omega, ?_, hmade.cons _, ?_, rfl, rfl,
      Function.update_self _ _ _⟩, fun hst => ?_, fun _ _ => ?_⟩
    · refine List.forall_mem_cons.mpr ⟨Nat.lt_succ_self _, fun p hp => ?_⟩
      exact Nat.lt_succ_of_lt (hg.lt p (List.mem_cons_of_mem _ hp))
    · exact List.nodup_cons.mpr ⟨fun hm => hnew (List.mem_cons_of_mem _ hm), hg.nodup.of_cons⟩
    · exact absurd ⟨hst.2, (hg.live hst.1).1.ne'⟩ hstays
    · rw [List.mem_cons, not_or, hmade.mem_iff]
      exact ⟨hlt.ne, (List.nodup_cons.mp hg.nodup).1⟩

/-- An element of a list with one more at its end. -/
theorem getElem?_snoc {α : Type} {xs : List α} {x y : α} {i : Nat} (h : (xs ++ [x])[i]? = some y) :
    (i < xs.length ∧ xs[i]? = some y) ∨ (i = xs.length ∧ y = x) := by
  rcases Nat.lt_or_ge i xs.length with hi | hi
  · rw [List.getElem?_append_left hi] at h
    exact .inl ⟨hi, h⟩
  · rw [List.getElem?_append_right hi] at h
    obtain ⟨hlt, rfl⟩ := List.getElem?_eq_some_iff.mp h
    rw [List.length_singleton] at hlt
    exact .inr ⟨by omega, List.getElem_singleton _⟩

theorem made_lt (hg : Going signed grants s l) {i p : Nat} (hp : s.heap.made[i]? = some p) :
    i < s.num := by
  rw [← hg.length]
  exact (List.getElem?_eq_some_iff.mp hp).1

/-- The heap behind an entry: its block is the next one, and the vector `v` points to it. -/
def Heap.added (h : Heap) (v k : Nat) (d : Dirent) : Heap where
  next := h.next + 1
  live := h.next :: h.live
  made := h.made ++ [h.next]
  slots := Function.update h.slots v (Function.update (h.slots v) k h.next)
  ents := Function.update h.ents h.next d

theorem turn_added (hm : (grants s.num).malloc = true)
    (hrun : s.heap.reallocarray s.namelist (s.num + 1) (grants s.num).realloc = some (v, h))
    (hv : 0 < v) (hnext : 0 < h.next) {d : Dirent}
    (hd : filled signed (grants s.num).garbage D = some d) :
    scandirTurn signed (grants s.num) D s =
      some (.inl ⟨v, s.num + 1, h.added v s.num d⟩) := by
  simp only [scandirTurn, hrun, Option.bind_eq_bind, Option.bind_some, if_neg hv.ne', Heap.malloc, hm,
    if_true, if_neg hnext.ne', Heap.setSlot, Function.update_self, hd, Function.update_idem]
  rfl

theorem Grown.going (hg : Going signed grants s l) (hv : Grown s v h)
    (hroom : (s.num + 1) * 8 < 2 ^ 64) {d : Dirent}
    (hd : filled signed (grants s.num).garbage D = some d) :
    Going signed grants ⟨v, s.num + 1, h.added v s.num d⟩ (l ++ [D]) := by
  have hvlt := hv.lt v List.mem_cons_self
  have hvpos := hv.pos
  have hnext := hv.next
  have hnew : h.next ∉ v :: s.heap.made := fun hm => Nat.lt_irrefl _ (hv.lt _ hm)
  refine ⟨by rw [List.length_append, ← hg.num]; rfl, hroom, by dsimp only [Heap.added]; omega, ?_, ?_,
    ?_, fun h0 => absurd h0 (Nat.succ_ne_zero _), fun _ => ⟨hvpos, ?_⟩, ?_, ?_, ?_⟩
  all_goals simp only [Heap.added, hv.made]
  · rw [List.length_append, hg.length, List.length_singleton]
  · rw [← List.cons_append]
    refine List.forall_mem_append.mpr ⟨fun p hp => Nat.lt_succ_of_lt (hv.lt p hp), ?_⟩
    exact List.forall_mem_singleton.mpr (Nat.lt_succ_self _)
  · refine List.forall_mem_append.mpr ⟨hg.pos, List.forall_mem_singleton.mpr (by omega)⟩
  · rw [← List.cons_append]
    exact (hv.live.cons _).trans (List.perm_append_singleton _ _).symm
  · rw [← List.cons_append]
    exact List.nodup_append.mpr ⟨hv.nodup, List.nodup_singleton _, by
      rintro a ha b hb rfl
      exact hnew (List.mem_singleton.mp hb ▸ ha)⟩
  · intro i p hp
    rw [Function.update_self, hv.slots]
    rcases getElem?_snoc hp with ⟨-, hp⟩ | ⟨rfl, rfl⟩
    · rw [Function.update_of_ne (made_lt hg hp).ne]
      exact hg.slots i p hp
    · rw [hg.length, Function.update_self]
  · intro i p D' hp hD'
    rcases getElem?_snoc hp with ⟨hi, hp⟩ | ⟨rfl, rfl⟩ <;>
      rcases getElem?_snoc hD' with ⟨hi', hD'⟩ | ⟨hieq, rfl⟩
    · have hne : p ≠ h.next := fun he =>
        hnew (he ▸ List.mem_cons_of_mem _ (List.mem_of_getElem? hp))
      rw [Function.update_of_ne hne, hv.ents]
      exact hg.ents i p D' hp hD'
    · rw [hieq, hg.length, hg.num] at hi
      exact absurd hi (Nat.lt_irrefl _)
    · rw [hg.length, hg.num] at hi'
      exact absurd hi' (Nat.lt_irrefl _)
    · rw [Function.update_self, hg.length]
      exact hd

/-- An entry for which there is a vector and a block. -/
theorem turn_goes (hg : Going signed grants s l) (hD : Entry D) (hf : ¬Fails grants s.num) :
    ∃ s', scandirTurn signed (grants s.num) D s = some (.inl s') ∧
      Going signed grants s' (l ++ [D]) := by
  obtain ⟨hvec, hmalloc⟩ := not_or.mp hf
  obtain ⟨v, h, hrun, hv, -⟩ := reallocarray_grows hg hvec
  obtain ⟨d, hd, -⟩ := filled_eq signed (grants s.num).garbage hD
  have hnext : 0 < h.next := Nat.zero_lt_of_lt (hv.lt v List.mem_cons_self)
  exact ⟨_, turn_added (by simpa using hmalloc) hrun hv.pos hnext hd,
    hv.going hg (Nat.lt_of_not_le (not_or.mp hvec).1) hd⟩

/-- -1 is returned, and no block is in use. -/
def Frees (r : Option (Progress ⊕ Heap)) : Prop := ∃ h, r = some (.inr h) ∧ h.live = []

/-- A block that was freed is accessed, or -1 is returned and a block is in use. -/
def Loses (r : Option (Progress ⊕ Heap)) : Prop := r = none ∨ ∃ h, r = some (.inr h) ∧ h.live ≠ []

/-- Everything is freed through the vector of the entries before. -/
theorem giveUp_going (hg : Going signed grants s l) (hlive : h.live = s.heap.live)
    (hslots : ∀ i < s.num, h.slots s.namelist i = s.heap.slots s.namelist i) :
    ∃ h', giveUp s.namelist s.num h = some h' ∧ h'.live = [] := by
  rcases Nat.eq_zero_or_pos s.num with h0 | hpos
  · obtain ⟨hn, hl⟩ := hg.start h0
    rw [h0, hn]
    exact ⟨h, giveUp_none h, hlive.trans hl⟩
  · obtain ⟨hvpos, hperm⟩ := hg.live hpos
    rw [← hg.length]
    exact giveUp_eq hvpos hg.pos hg.nodup (hlive ▸ hperm) fun i p hp =>
      (hslots i (made_lt hg hp)).trans (hg.slots i p hp)

/-- An entry for which there is no vector. -/
theorem turn_vector (hg : Going signed grants s l) (hf : VectorFails grants s.num) (D : Dirent) :
    Frees (scandirTurn signed (grants s.num) D s) := by
  obtain ⟨h', hrun, hnil⟩ := giveUp_going hg rfl fun _ _ => rfl
  refine ⟨h', ?_, hnil⟩
  simp only [scandirTurn, reallocarray_fails hg hf, Option.bind_eq_bind, Option.bind_some, if_true,
    hrun, Option.map_some]

/-- An entry for which there is no block: the turn gives up with the vector of the entries before. -/
theorem turn_malloc (hf : (grants s.num).malloc = false)
    (hrun : s.heap.reallocarray s.namelist (s.num + 1) (grants s.num).realloc = some (v, h))
    (hv : 0 < v) (D : Dirent) : scandirTurn signed (grants s.num) D s =
      (giveUp s.namelist s.num (h.setSlot v s.num 0)).map .inr := by
  have hm : h.malloc (grants s.num) = (0, h) := if_neg (by simp [hf])
  simp only [scandirTurn, hrun, Option.bind_eq_bind, Option.bind_some, if_neg hv.ne', hm, if_true]

/-- The vector has stayed where it was. -/
theorem turn_stays (hg : Going signed grants s l) (hvec : ¬VectorFails grants s.num)
    (hf : (grants s.num).malloc = false) (hpos : 0 < s.num) (hst : (grants s.num).realloc = .stays)
    (D : Dirent) : Frees (scandirTurn signed (grants s.num) D s) := by
  obtain ⟨hroom, -⟩ := not_or.mp hvec
  obtain ⟨hvpos, hperm⟩ := hg.live hpos
  have hin : s.namelist ∈ s.heap.live := hperm.mem_iff.mpr List.mem_cons_self
  have hrun : s.heap.reallocarray s.namelist (s.num + 1) (grants s.num).realloc =
      some (s.namelist, s.heap) := by
    rw [Heap.reallocarray, if_neg hroom, Heap.realloc, if_neg fun h => h.2 hin, hst,
      if_neg (fun h => nomatch h), if_pos ⟨rfl, hvpos.ne'⟩]
  have hbelow : ∀ i < s.num, (s.heap.setSlot s.namelist s.num 0).slots s.namelist i =
      s.heap.slots s.namelist i := fun i hi => by
    rw [Heap.setSlot]
    dsimp only
    rw [Function.update_self, Function.update_of_ne hi.ne]
  have hlive : (s.heap.setSlot s.namelist s.num 0).live = s.heap.live := rfl
  obtain ⟨h', hgive, hnil⟩ := giveUp_going hg hlive hbelow
  exact ⟨h', by rw [turn_malloc hf hrun hvpos, hgive]; rfl, hnil⟩

/-- The vector is a new one, and lost. -/
theorem turn_moves (hg : Going signed grants s l) (hvec : ¬VectorFails grants s.num)
    (hf : (grants s.num).malloc = false) (hbad : ¬(0 < s.num ∧ (grants s.num).realloc = .stays))
    (D : Dirent) : Loses (scandirTurn signed (grants s.num) D s) := by
  obtain ⟨v, h, hrun, hv, -, hmoved⟩ := reallocarray_grows hg hvec
  rw [turn_malloc hf hrun hv.pos]
  rcases Nat.eq_zero_or_pos s.num with h0 | hpos
  · refine .inr ⟨h.setSlot v s.num 0, ?_, ?_⟩
    · rw [(hg.start h0).1, h0, giveUp_none, Option.map_some]
    · exact List.ne_nil_of_mem (hv.live.mem_iff.mpr List.mem_cons_self)
  · have hout : s.namelist ∉ (h.setSlot v s.num 0).live := hmoved hpos fun hst => hbad ⟨hpos, hst⟩
    exact .inl (by rw [giveUp_moved hout hpos, Option.map_none])

/-! ## The listing -/

/-- The entries that are selected. -/
def selected (select : Option (Dirent → Bool)) (listing : List Dirent) : List Dirent :=
  listing.filter fun D => select.all (· D)

theorem loop_skip (hD : select.all (· D) = false) : scandirLoop signed select grants (D :: listing) s =
    scandirLoop signed select grants listing s := by
  rw [scandirLoop, hD]
  rfl

theorem loop_turn (hD : select.all (· D) = true) : scandirLoop signed select grants (D :: listing) s =
    (scandirTurn signed (grants s.num) D s).bind fun r =>
      r.elim (scandirLoop signed select grants listing) fun h => some (.inr h) := by
  rw [scandirLoop, if_pos hD]

/-- A loop in which no allocation fails. -/
theorem loop_goes (hg : Going signed grants s l) (hE : ∀ D ∈ listing, Entry D)
    (hok : ∀ k < (l ++ selected select listing).length, ¬Fails grants k) :
    ∃ s', scandirLoop signed select grants listing s = some (.inl s') ∧
      Going signed grants s' (l ++ selected select listing) := by
  induction listing generalizing s l with
  | nil => exact ⟨s, rfl, by rwa [selected, List.filter_nil, List.append_nil]⟩
  | cons D listing ih =>
    obtain ⟨hD, hE⟩ := List.forall_mem_cons.mp hE
    rcases hsel : select.all (· D) with _ | _
    · have heq : selected select (D :: listing) = selected select listing :=
        List.filter_cons_of_neg (by simpa using hsel)
      rw [loop_skip hsel, heq]
      rw [heq] at hok
      exact ih hg hE hok
    · have heq : selected select (D :: listing) = D :: selected select listing :=
        List.filter_cons_of_pos hsel
      rw [heq, List.append_cons] at hok ⊢
      have hk := hok s.num (by
        rw [hg.num, List.length_append, List.length_append, List.length_singleton]
        omega)
      obtain ⟨s', hturn, hg'⟩ := turn_goes hg hD hk
      rw [loop_turn hsel, hturn]
      exact ih hg' hE hok

/-- A loop in which an allocation fails. -/
theorem loop_stops (hg : Going signed grants s l) (hE : ∀ D ∈ listing, Entry D) (hlk : l.length ≤ k)
    (hk : k < (l ++ selected select listing).length) (hf : Fails grants k)
    (hbefore : ∀ j < k, ¬Fails grants j) :
    ((VectorFails grants k ∨ (0 < k ∧ (grants k).realloc = .stays)) →
      Frees (scandirLoop signed select grants listing s)) ∧
    (¬(VectorFails grants k ∨ (0 < k ∧ (grants k).realloc = .stays)) →
      Loses (scandirLoop signed select grants listing s)) := by
  induction listing generalizing s l with
  | nil =>
    rw [selected, List.filter_nil, List.append_nil] at hk
    omega
  | cons D listing ih =>
    obtain ⟨hD, hE⟩ := List.forall_mem_cons.mp hE
    rcases hsel : select.all (· D) with _ | _
    · have heq : selected select (D :: listing) = selected select listing :=
        List.filter_cons_of_neg (by simpa using hsel)
      rw [loop_skip hsel]
      rw [heq] at hk
      exact ih hg hE hlk hk
    · have heq : selected select (D :: listing) = D :: selected select listing :=
        List.filter_cons_of_pos hsel
      rw [loop_turn hsel]
      rcases Nat.eq_or_lt_of_le hlk with rfl | hlt
      · rw [← hg.num] at hf ⊢
        constructor
        · intro hok
          have hfrees : Frees (scandirTurn signed (grants s.num) D s) := by
            by_cases hvec : VectorFails grants s.num
            · exact turn_vector hg hvec D
            · obtain ⟨hpos, hst⟩ := hok.resolve_left hvec
              exact turn_stays hg hvec (hf.resolve_left hvec) hpos hst D
          obtain ⟨h, hturn, hnil⟩ := hfrees
          exact ⟨h, by rw [hturn]; rfl, hnil⟩
        · intro hbad
          obtain ⟨hvec, hbad⟩ := not_or.mp hbad
          rcases turn_moves hg hvec (hf.resolve_left hvec) hbad D with hturn | ⟨h, hturn, hne⟩
          · exact .inl (by rw [hturn]; rfl)
          · exact .inr ⟨h, by rw [hturn]; rfl, hne⟩
      · obtain ⟨s', hturn, hg'⟩ := turn_goes hg hD (hbefore s.num (by rw [hg.num]; exact hlt))
        rw [hturn]
        rw [heq, List.append_cons] at hk
        exact ih hg' hE (by rw [List.length_append, List.length_singleton]; omega) hk

/-! ## The vector in the end -/

theorem map_slots (hg : Going signed grants s l) :
    (List.range s.num).map (s.heap.slots s.namelist) = s.heap.made := by
  refine List.ext_getElem (by rw [List.length_map, List.length_range, hg.length]) fun i hi hi' => ?_
  rw [List.getElem_map, List.getElem_range]
  exact hg.slots i _ (List.getElem?_eq_getElem hi')

/-- What the sort leaves: the same pointers, in order. -/
structure Sorted (s : Progress) (compar : Option (Dirent → Dirent → Int)) (h : Heap) : Prop where
  live : h.live = s.heap.live
  made : h.made = s.heap.made
  ents : h.ents = s.heap.ents
  pointers : ((List.range s.num).map (h.slots s.namelist)).Perm s.heap.made
  sorted : ∀ c ∈ compar, ∀ i j, i ≤ j → j < s.num →
    c (h.ents (h.slots s.namelist i)) (h.ents (h.slots s.namelist j)) ≤ 0

theorem sortNames_eq {σ : Type} {compar : Option (Dirent → Dirent → Int)} (hg : Going signed grants s l)
    (hc : ∀ c ∈ compar, Orders c) (rand : σ → Nat × σ) (seed : σ) :
    ∃ h, sortNames compar rand seed s = some h ∧ Sorted s compar h := by
  cases compar with
  | none =>
    refine ⟨s.heap, rfl, rfl, rfl, rfl, ?_, fun c hc => nomatch hc⟩
    rw [map_slots hg]
  | some c =>
    have horders := hc c rfl
    have hroom := hg.room
    have hnext := hg.next
    have hf : ∀ k < s.num, s.heap.slots s.namelist k < 2 ^ 64 := fun k hk => by
      rw [← hg.length] at hk
      have hget := List.getElem?_eq_getElem hk
      rw [hg.slots k _ hget]
      have := hg.lt _ (List.mem_cons_of_mem _ (List.getElem_mem hk))
      omega
    obtain ⟨f, seed', hrun, hperm, hsorted⟩ := Sort.qsortPointers_spec
      (c := fun p q => c (s.heap.ents p) (s.heap.ents q))
      (fun _ _ => horders.flip _ _) (fun _ _ _ => horders.trans _ _ _) (by omega) hf seed
    refine ⟨{ s.heap with slots := Function.update s.heap.slots s.namelist f },
      by rw [sortNames, hrun], rfl, rfl, rfl, ?_, ?_⟩
    · rw [map_slots hg] at hperm
      simpa only [Function.update_self] using hperm
    · rintro c' ⟨⟩
      simpa only [Function.update_self] using hsorted

/-- The entries are there exactly if their blocks were lucky. -/
theorem collects_iff {compar : Option (Dirent → Dirent → Int)} (hg : Going signed grants s l)
    (hE : ∀ D ∈ l, Entry D) (hs : Sorted s compar h) (ret : Int) :
    Collects ⟨ret, s.namelist, h⟩ l compar ↔
      ret = l.length ∧ ∀ k D, l[k]? = some D → Lucky (grants k).garbage D := by
  have hlen : s.heap.made.length = l.length := hg.length.trans hg.num
  have hdescribes (k : Nat) (p : Nat) (D : Dirent) (hp : s.heap.made[k]? = some p)
      (hD : l[k]? = some D) : Describes (h.ents p) D ↔ Lucky (grants k).garbage D := by
    obtain ⟨d, hd, hiff⟩ := filled_eq signed (grants k).garbage
      (hE D (List.mem_of_getElem? hD))
    rw [hs.ents, Option.some.inj ((hg.ents k p D hp hD).symm.trans hd)]
    exact hiff
  constructor
  · intro hc
    refine ⟨hc.count, fun k D hD => ?_⟩
    obtain ⟨hk, -⟩ := List.getElem?_eq_some_iff.mp hD
    have hp := List.getElem?_eq_getElem (l := s.heap.made) (i := k) (by rw [hlen]; exact hk)
    have hall := hc.describes
    simp only [hs.made] at hall
    have hat := (List.forall₂_iff_get.mp hall).2 k (by rw [hlen]; exact hk) hk
    rw [← hdescribes k _ D hp hD]
    have hDk : l.get ⟨k, hk⟩ = D := (List.getElem?_eq_some_iff.mp hD).2
    rw [hDk] at hat
    exact hat
  · rintro ⟨rfl, hlucky⟩
    refine ⟨rfl, ?_, ?_, ?_, ?_, ?_, ?_⟩
    · rw [show (Scanned.mk _ s.namelist h).heap.made = s.heap.made from hs.made]
      exact hg.nodup.of_cons
    · intro p hp
      change p ∈ h.made at hp
      change p ∈ h.live
      rw [hs.made] at hp
      have hpos : 0 < s.num := by
        rw [← hg.length]
        exact List.length_pos_of_mem hp
      rw [hs.live, (hg.live hpos).2.mem_iff]
      exact List.mem_cons_of_mem _ hp
    · change List.Forall₂ (fun p D => Describes (h.ents p) D) h.made l
      rw [hs.made]
      refine List.forall₂_iff_get.mpr ⟨hlen, fun k hk hk' => ?_⟩
      have hp := List.getElem?_eq_getElem hk
      have hD := List.getElem?_eq_getElem hk'
      exact (hdescribes k _ _ hp hD).mpr (hlucky k _ hD)
    · intro hpos
      change s.namelist ∈ h.live
      rw [hs.live, (hg.live (by rw [hg.num]; exact hpos)).2.mem_iff]
      exact List.mem_cons_self
    · change ((List.range l.length).map (h.slots s.namelist)).Perm h.made
      rw [hs.made, ← hg.num]
      exact hs.pointers
    · rw [← hg.num]
      exact hs.sorted

/-! ## `scandir` -/

/-- A number of entries and the `int` that is returned for it. -/
theorem conv_cases (n : Nat) : ∃ ret, conv 32 n = ret ∧
    (n < 2 ^ 31 → ret = n) ∧ (2 ^ 31 ≤ n → ret ≠ n) ∧
      (0 ≤ ret ↔ n % 2 ^ 32 < 2 ^ 31) ∧ (ret = -1 ↔ n % 2 ^ 32 = 2 ^ 32 - 1) := by
  have hmod := conv_emod32 n
  have hbounds := conv_bounds32 n
  refine ⟨_, rfl, fun h => ?_, fun h => ?_, ?_, ?_⟩ <;> omega

theorem entries_selected (hE : ∀ D ∈ listing, Entry D) : ∀ D ∈ selected select listing, Entry D :=
  fun D hD => hE D (List.mem_filter.mp hD).1

section

variable {σ : Type} {compar : Option (Dirent → Dirent → Int)} {rand : σ → Nat × σ} {seed : σ}
  {slots : Nat → Nat → Nat} {ents : Nat → Dirent} {r : Option (Progress ⊕ Heap)}

/-- What `scandir` makes of where the loop ends. -/
theorem scandir_eq (hloop : scandirLoop signed select grants listing
      ⟨0, 0, ⟨1, [], [], slots, ents⟩⟩ = r) :
    scandir signed select compar rand seed grants listing slots ents = r.bind fun
      | .inr h => some ⟨-1, 0, h⟩
      | .inl s => (sortNames compar rand seed s).map fun h => ⟨conv 32 s.num, s.namelist, h⟩ := by
  rw [← hloop]
  rfl

/-- Where every allocation goes well, the entries are there exactly if the blocks were lucky, and
otherwise the number is to be a negative one. -/
theorem done_right_iff (hg : Going signed grants s l) (hE : ∀ D ∈ l, Entry D)
    (hs : Sorted s compar h) :
    ScandirRight l compar (some ⟨conv 32 l.length, s.namelist, h⟩) ↔
      (2 ^ 31 ≤ l.length % 2 ^ 32 ∧ l.length % 2 ^ 32 < 2 ^ 32 - 1) ∨
      (l.length < 2 ^ 31 ∧ ∀ k D, l[k]? = some D → Lucky (grants k).garbage D) := by
  obtain ⟨ret, hret, hsmall, hlarge, hnonneg, hminus⟩ := conv_cases l.length
  have hcollects := collects_iff hg hE hs ret
  have hlive (hpos : 0 < l.length) : h.live ≠ [] := fun hnil => by
    have hperm := (hg.live (by rw [hg.num]; exact hpos)).2
    rw [← hs.live, hnil] at hperm
    exact List.cons_ne_nil _ _ (List.nil_perm.mp hperm)
  rw [hret]
  generalize l.length = n at *
  constructor
  · rintro ⟨r, hr, hpos, hneg⟩
    cases hr
    by_cases hmod : n % 2 ^ 32 < 2 ^ 31
    · obtain ⟨hcount, hlucky⟩ := hcollects.mp (hpos (hnonneg.mpr hmod))
      exact .inr ⟨Nat.lt_of_not_le fun hge => hlarge hge hcount, hlucky⟩
    · refine .inl ⟨Nat.le_of_not_lt hmod, Nat.lt_of_not_le fun hge => ?_⟩
      have hlast : n % 2 ^ 32 = 2 ^ 32 - 1 := by omega
      exact hlive (by omega) (hneg (hminus.mpr hlast))
  · rintro (⟨hge, hlt⟩ | ⟨hlt, hlucky⟩)
    · refine ⟨_, rfl, fun h => ?_, fun h => ?_⟩
      · exact absurd (hnonneg.mp h) (Nat.not_lt.mpr hge)
      · exact absurd (hminus.mp h) hlt.ne
    · refine ⟨_, rfl, fun _ => hcollects.mpr ⟨hsmall hlt, hlucky⟩, fun h => ?_⟩
      have hlast := hminus.mp h
      omega

theorem scandir_done_iff (hE : ∀ D ∈ listing, Entry D) (hc : ∀ c ∈ compar, Orders c)
    (hok : ∀ k < (selected select listing).length, ¬Fails grants k) :
    ScandirRight (selected select listing) compar
      (scandir signed select compar rand seed grants listing slots ents) ↔
      (2 ^ 31 ≤ (selected select listing).length % 2 ^ 32 ∧
        (selected select listing).length % 2 ^ 32 < 2 ^ 32 - 1) ∨
      ((selected select listing).length < 2 ^ 31 ∧
        ∀ k D, (selected select listing)[k]? = some D → Lucky (grants k).garbage D) := by
  obtain ⟨s, hloop, hg⟩ := loop_goes (going_start signed grants slots ents) hE hok
  rw [List.nil_append] at hg
  obtain ⟨h, hsort, hs⟩ := sortNames_eq hg hc rand seed
  rw [scandir_eq hloop, Option.bind_some]
  dsimp only
  rw [hsort, Option.map_some, hg.num]
  exact done_right_iff hg (entries_selected hE) hs

/-- **`scandir` returns the selection or frees everything exactly if** `ScandirFits`: the inode and the
type are never copied, nor is a NUL behind 255 bytes, and where there is no block for an entry the
error path goes by the vector that was moved. -/
theorem scandir_right_iff (hE : ∀ D ∈ listing, Entry D) (hc : ∀ c ∈ compar, Orders c) :
    ScandirRight (selected select listing) compar
      (scandir signed select compar rand seed grants listing slots ents) ↔
      ScandirFits grants (selected select listing) := by
  by_cases hok : ∀ k < (selected select listing).length, ¬Fails grants k
  · rw [scandir_done_iff hE hc hok]
    exact ⟨fun h => ⟨fun k hk hf => absurd hf (hok k hk), fun _ => h⟩, fun h => h.done hok⟩
  · classical
    push Not at hok
    have hleast := Nat.find_spec hok
    have hbefore : ∀ j < Nat.find hok, ¬Fails grants j := fun j hj hf =>
      Nat.find_min hok hj ⟨hj.trans hleast.1, hf⟩
    obtain ⟨hfrees, hloses⟩ := loop_stops (going_start signed grants slots ents) hE
      (Nat.zero_le _) hleast.1 hleast.2 hbefore
    constructor
    · rintro ⟨r, hr, -, hneg⟩
      refine ⟨fun k hk hf hfirst => ?_, fun hall => absurd hleast.2 (hall _ hleast.1)⟩
      have hk' : k = Nat.find hok := by
        rcases Nat.lt_trichotomy k (Nat.find hok) with hlt | heq | hgt
        · exact absurd hf (hbefore k hlt)
        · exact heq
        · exact absurd hleast.2 (hfirst _ hgt)
      subst hk'
      by_contra hbad
      rcases hloses hbad with hnone | ⟨h, hsome, hne⟩
      · rw [scandir_eq hnone, Option.bind_none] at hr
        cases hr
      · rw [scandir_eq hsome, Option.bind_some] at hr
        cases hr
        exact hne (hneg rfl)
    · intro hfit
      obtain ⟨h, hsome, hnil⟩ := hfrees (hfit.failed _ hleast.1 hleast.2 hbefore)
      refine ⟨⟨-1, 0, h⟩, by rw [scandir_eq hsome, Option.bind_some], fun hpos => ?_, fun _ => hnil⟩
      exact absurd hpos (show ¬(0 : Int) ≤ -1 by decide)

end

end

/-- The entry `a`. -/
def direntA : Dirent := ⟨7, 24, 24, 8, [97, 0]⟩

/-- New blocks are blank. -/
def blank (_ : Nat) : Grant := ⟨.moves, true, ⟨0, 0, 0, 0, []⟩⟩

/-- A comparator of inodes. -/
def inosort (x y : Dirent) : Int := (x.d_ino : Int) - y.d_ino

theorem direntA_entry : ∀ D ∈ [direntA], Entry D :=
  List.forall_mem_singleton.mpr ⟨by decide, by decide⟩

theorem inosort_orders : ∀ c ∈ some inosort, Orders c := by
  rintro c ⟨⟩
  exact ⟨fun x y => by unfold inosort; omega, fun x y z => by unfold inosort; omega⟩

theorem scandir_right_iff_a : (∀ D ∈ [direntA], Entry D) ∧ (∀ c ∈ some inosort, Orders c) ∧
    (ScandirRight (selected none [direntA]) (some inosort)
      (scandir true none (some inosort) (fun u => (0, u)) () blank [direntA] (fun _ _ => 0)
        fun _ => direntA) ↔ ScandirFits blank (selected none [direntA])) :=
  ⟨direntA_entry, inosort_orders, scandir_right_iff direntA_entry inosort_orders⟩

/-- The inode of the only entry is not copied. -/
theorem scandir_blank_ino : ¬∀ (signed : Bool) (select : Option (Dirent → Bool))
    (compar : Option (Dirent → Dirent → Int)) (grants : Nat → Grant) (listing : List Dirent),
    (∀ D ∈ listing, Entry D) → (∀ c ∈ compar, Orders c) →
      ScandirRight (selected select listing) compar
        (scandir signed select compar (fun u => (0, u)) () grants listing (fun _ _ => 0)
          fun _ => direntA) := by
  intro hall
  have hok : ∀ k < (selected none [direntA]).length, ¬Fails blank k := fun k hk hf => by
    have h0 : k = 0 := Nat.lt_one_iff.mp hk
    subst h0
    revert hf
    simp [Fails, VectorFails, blank]
  have hno : ∀ c ∈ (none : Option (Dirent → Dirent → Int)), Orders c := fun _ hc => nomatch hc
  have hright := hall true none none blank [direntA] direntA_entry hno
  rcases (scandir_done_iff direntA_entry hno hok).mp hright with ⟨hlarge, -⟩ | ⟨-, hlucky⟩
  · exact absurd hlarge (by decide)
  · exact absurd (hlucky 0 direntA rfl).1 (by decide)

end Dietlibc.Dirs
