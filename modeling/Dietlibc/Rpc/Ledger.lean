import Dietlibc.Rpc.Xdr
import Mathlib.Algebra.BigOperators.Group.Multiset.Basic
import Mathlib.Algebra.Order.Group.Multiset
import Mathlib.Tactic

/-!
# The blocks of an object

What is decoded lives on the heap, and `xdr_free` gives it back. The stream may say anything here, and
`malloc` may refuse any request: a function that fails leaves the object half made, and the caller frees
it all the same. The law is one of conservation. Decoding adds to the heap the blocks of the object that
it leaves, and freeing takes the blocks of the object away; so no block is lost and none is freed twice.
-/

namespace Dietlibc.Rpc

open CInt

/-! ## Blocks -/

section

variable {α β : Type}

def bufferBlocks : Option Buffer → Multiset Nat
  | none => 0
  | some b => {b.1}

def listBlocks (blocks : α → Multiset Nat) (l : List α) : Multiset Nat := (l.map blocks).sum

def arrayBlocks (blocks : α → Multiset Nat) : Option (Nat × List α) → Multiset Nat
  | none => 0
  | some b => b.1 ::ₘ listBlocks blocks b.2

def unionBlocks {α : Nat → Type} (blocks : ∀ i, α i → Multiset Nat) :
    Option (Σ i, α i) → Multiset Nat
  | none => 0
  | some u => blocks u.1 u.2

def referenceBlocks (blocks : α → Multiset Nat) : Option (Nat × α) → Multiset Nat
  | none => 0
  | some b => b.1 ::ₘ blocks b.2

def pairBlocks (fst : α → Multiset Nat) (snd : β → Multiset Nat) (o : α × β) : Multiset Nat :=
  fst o.1 + snd o.2

/-- The blocks that an object holds. -/
def blocks : (d : Desc) → Obj d → Multiset Nat
  | .void, _ => 0
  | .scalar _, _ => 0
  | .fixed _, _ => 0
  | .bytes _, o => bufferBlocks o.2
  | .string _, o => bufferBlocks o
  | .array _ _ d, o => arrayBlocks (blocks d) o.2
  | .vector _ d, o => listBlocks (blocks d) o
  | .pair d e, o => pairBlocks (blocks d) (blocks e) o
  | .union _ _ part, o => unionBlocks (fun i => blocks (part i)) o.2
  | .reference d, o => referenceBlocks (blocks d) o
  | .pointer d, o => referenceBlocks (blocks d) o

@[simp] theorem listBlocks_nil (blocks : α → Multiset Nat) : listBlocks blocks [] = 0 := rfl

@[simp] theorem listBlocks_cons (blocks : α → Multiset Nat) (x : α) (l : List α) :
    listBlocks blocks (x :: l) = blocks x + listBlocks blocks l := by
  simp [listBlocks]

theorem listBlocks_eq_zero {blocks : α → Multiset Nat} {l : List α} (h : ∀ x ∈ l, blocks x = 0) :
    listBlocks blocks l = 0 := by
  induction l with
  | nil => rfl
  | cons x l ih =>
    rw [listBlocks_cons, h x (List.mem_cons_self ..),
      ih fun y hy => h y (List.mem_cons_of_mem _ hy), add_zero]

end

theorem Heap.malloc_cases (h : Heap) :
    (∃ h', h.malloc = (none, h') ∧ h'.live = h.live) ∨
      ∃ b h', h.malloc = (some b, h') ∧ h'.live = b ::ₘ h.live := by
  by_cases hg : h.grants h.next
  · exact .inr ⟨_, _, if_pos hg, rfl⟩
  · exact .inl ⟨_, if_neg hg, rfl⟩

theorem Heap.free_of_live {h : Heap} {b : Nat} {m : Multiset Nat} (hm : h.live = b ::ₘ m) :
    ∃ h', h.free b = some h' ∧ h'.live = m := by
  refine ⟨_, if_pos ?_, ?_⟩
  · rw [hm]
    exact Multiset.mem_cons_self b m
  · rw [hm]
    exact Multiset.erase_cons_head b m

theorem Heap.free_of_le {h : Heap} {b : Nat} (hb : {b} ≤ h.live) :
    ∃ h', h.free b = some h' ∧ h.live = h'.live + {b} := by
  obtain ⟨m, hm⟩ := Multiset.le_iff_exists_add.mp hb
  obtain ⟨h', hfree, hlive⟩ := Heap.free_of_live (hm.trans (Multiset.singleton_add b m))
  exact ⟨h', hfree, by rw [hm, hlive, add_comm]⟩

/-- A block is freed after what it holds. -/
theorem Heap.free_after {h h₁ : Heap} {k : Nat} {m : Multiset Nat} (hle : k ::ₘ m ≤ h.live)
    (hlive₁ : h.live = h₁.live + m) : ∃ h₂, h₁.free k = some h₂ ∧ h.live = h₂.live + k ::ₘ m := by
  rw [hlive₁, ← Multiset.singleton_add] at hle
  obtain ⟨h₂, hfree, hlive₂⟩ := Heap.free_of_le (Multiset.add_le_add_iff_right.mp hle)
  exact ⟨h₂, hfree, by rw [hlive₁, hlive₂, ← Multiset.singleton_add, add_assoc]⟩

/-! ## What can be freed -/

section

variable {α β σ τ : Type}

/-- The function frees the object, whose blocks are on the heap, and takes away just these. Of an object
that was made whole it also says so. -/
def Freeable (free : Proc τ α) (blocks : α → Multiset Nat) (o : α) (ok : Bool) : Prop :=
  ∀ t h, blocks o ≤ h.live → ∃ ok' o' h', free o t h = some (ok', o', t, h') ∧
    h.live = h'.live + blocks o ∧ blocks o' = 0 ∧ (ok = true → ok' = true)

/-- One function decodes, and another frees what that leaves. -/
structure Conserves (decode : Proc σ α) (free : Proc τ α) (blocks : α → Multiset Nat) (init : α) :
    Prop where
  init_blocks : blocks init = 0
  init_free : Freeable free blocks init false
  decode : ∀ s h, ∃ ok o s' h', decode init s h = some (ok, o, s', h') ∧
    h'.live = h.live + blocks o ∧ Freeable free blocks o ok

variable {decode : Proc σ α} {free : Proc τ α} {blocks : α → Multiset Nat} {init : α}

/-- An object without blocks, which the function for it leaves alone. -/
theorem Freeable.of_pure {o : α}
    (hfree : ∀ t h, ∃ o', free o t h = some (true, o', t, h) ∧ blocks o' = 0)
    (hblocks : blocks o = 0) (ok : Bool) : Freeable free blocks o ok := by
  intro t h _
  obtain ⟨o', hs, ho'⟩ := hfree t h
  exact ⟨true, o', h, hs, by rw [hblocks, add_zero], ho', fun _ => rfl⟩

/-- Of a structure: behind a first member that is not whole, the second has no blocks. -/
theorem Freeable.pair {free' : Proc τ β} {blocks' : β → Multiset Nat} {x : α} {y : β} {ok ok' : Bool}
    (hx : Freeable free blocks x ok) (hy : Freeable free' blocks' y ok')
    (h : ok = true ∨ ok' = false ∧ blocks' y = 0) :
    Freeable (xdrPair free free') (pairBlocks blocks blocks') (x, y) ok' := by
  intro t g hle
  obtain ⟨ok₁, x', g₁, hs₁, hlive₁, hx', hok₁⟩ := hx t g ((Multiset.le_add_right _ _).trans hle)
  cases ok₁ with
  | false =>
    obtain ⟨rfl, hzero⟩ := h.resolve_left fun h => nomatch hok₁ h
    refine ⟨false, (x', y), g₁, by simp [xdrPair, hs₁], ?_, ?_, nofun⟩
    · rw [hlive₁, pairBlocks, hzero, add_zero]
    · rw [pairBlocks, hx', hzero, add_zero]
  | true =>
    have hle₁ : blocks' y ≤ g₁.live := by
      rw [hlive₁, pairBlocks, add_comm] at hle
      exact Multiset.add_le_add_iff_right.mp hle
    obtain ⟨ok₂, y', g₂, hs₂, hlive₂, hy', hok₂⟩ := hy t g₁ hle₁
    refine ⟨ok₂, (x', y'), g₂, by simp [xdrPair, hs₁, hs₂], ?_, ?_, hok₂⟩
    · rw [hlive₁, hlive₂, pairBlocks, add_right_comm, add_assoc]
    · rw [pairBlocks, hx', hy', add_zero]

/-- An array is its first element and the rest. -/
theorem Freeable.cons {x : α} {l : List α} {ok ok' : Bool} (hx : Freeable free blocks x ok)
    (hl : Freeable (elements free) (listBlocks blocks) l ok')
    (h : ok = true ∨ ok' = false ∧ listBlocks blocks l = 0) :
    Freeable (elements free) (listBlocks blocks) (x :: l) ok' := by
  intro t g hle
  rw [listBlocks_cons] at hle
  obtain ⟨ok₁, ⟨x', l'⟩, g', hs, hlive, hzero, hok⟩ := hx.pair hl h t g hle
  refine ⟨ok₁, x' :: l', g', ?_, by rwa [listBlocks_cons], by rwa [listBlocks_cons], hok⟩
  rcases hx' : free x t g with _ | ⟨_ | _, x₁, t₁, g₁⟩
  · simp [xdrPair, hx'] at hs
  · simp_all [xdrPair, elements]
  · rcases hl' : elements free l t₁ g₁ with _ | r <;> simp_all [xdrPair, elements]

theorem freeable_nil (ok : Bool) : Freeable (elements free) (listBlocks blocks) [] ok :=
  fun _ g _ => ⟨true, [], g, rfl, (add_zero _).symm, rfl, fun _ => rfl⟩

theorem listBlocks_replicate (hblocks : blocks init = 0) (n : Nat) :
    listBlocks blocks (List.replicate n init) = 0 :=
  listBlocks_eq_zero fun _ hy => List.eq_of_mem_replicate hy ▸ hblocks

theorem freeable_replicate (hblocks : blocks init = 0) (hfree : Freeable free blocks init false)
    (n : Nat) : Freeable (elements free) (listBlocks blocks) (List.replicate n init) false := by
  induction n with
  | zero => exact freeable_nil false
  | succ n ih => exact hfree.cons ih (.inr ⟨rfl, listBlocks_replicate hblocks n⟩)

theorem elements_conserve (hc : Conserves decode free blocks init) (n : Nat) (s : σ) (h : Heap) :
    ∃ ok l s' h', elements decode (List.replicate n init) s h = some (ok, l, s', h') ∧
      l.length = n ∧ h'.live = h.live + listBlocks blocks l ∧
        Freeable (elements free) (listBlocks blocks) l ok := by
  induction n generalizing s h with
  | zero => exact ⟨true, [], s, h, rfl, rfl, (add_zero _).symm, freeable_nil true⟩
  | succ n ih =>
    obtain ⟨ok₁, x, s₁, h₁, hs₁, hlive₁, hfree⟩ := hc.decode s h
    rw [List.replicate_succ]
    cases ok₁ with
    | true =>
      obtain ⟨ok₂, l, s₂, h₂, hs₂, hlen, hlive₂, hl⟩ := ih s₁ h₁
      refine ⟨ok₂, x :: l, s₂, h₂, ?_, congrArg (· + 1) hlen, ?_, hfree.cons hl (.inl rfl)⟩
      · simp only [elements, hs₁, Option.bind_some, if_true, hs₂, Option.map_some]
      · rw [hlive₂, hlive₁, listBlocks_cons, add_assoc]
    | false =>
      have hrest := listBlocks_replicate hc.init_blocks n
      refine ⟨false, x :: List.replicate n init, s₁, h₁, by simp [elements, hs₁], by simp, ?_,
        hfree.cons (freeable_replicate hc.init_blocks hc.init_free n) (.inr ⟨rfl, hrest⟩)⟩
      rw [hlive₁, listBlocks_cons, hrest, add_zero]

end

/-! ## The functions -/

section

variable {α β σ τ : Type} (st : Stream σ) (t : Stream τ)

@[simp] theorem xdrScalar_free (k : Scalar) (v : Int) (u : τ) :
    xdrScalar t .free k v u = (true, v, u) := rfl

@[simp] theorem xdrUInt_free (n : Nat) (u : τ) : xdrUInt t .free n u = (true, n, u) := rfl

theorem xdrUInt_decode_lt {n m : Nat} {s s' : σ} (h : xdrUInt st .decode n s = (true, m, s')) :
    m < 2 ^ 32 := by
  rw [xdrUInt, xdrScalar] at h
  rcases hget : st.getlong s with ⟨_ | l, s₁⟩
  · simp [hget] at h
  · simp only [hget, Scalar.take, Prod.mk.injEq] at h
    omega

/-- Whatever comes, and also when nothing comes, only the bytes that were asked for change. -/
theorem xdrOpaque_decode_any {cnt : Nat} {old : List UInt8} (tail : List UInt8)
    (hold : old.length = cnt) (s : σ) :
    ∃ ok new s', xdrOpaque st .decode cnt (old ++ tail) s = some (ok, new ++ tail, s') ∧
      new.length = cnt := by
  by_cases h0 : cnt = 0
  · exact ⟨true, old, s, if_pos h0, hold⟩
  · have hlen : ¬ (old ++ tail).length < cnt := by rw [List.length_append]; omega
    rcases hget : st.getbytes cnt s with ⟨ok, got, s₁⟩
    have hgot : (got.take cnt).length ≤ old.length := by rw [List.length_take]; omega
    have hdrop : (old ++ tail).drop (got.take cnt).length =
        old.drop (got.take cnt).length ++ tail := List.drop_append_of_le_length hgot
    have hnew : (got.take cnt ++ old.drop (got.take cnt).length).length = cnt := by
      rw [List.length_append, List.length_drop]
      omega
    simp only [xdrOpaque, if_neg h0, if_neg hlen, hget, hdrop, ← List.append_assoc]
    by_cases hok : ok = false
    · exact ⟨_, _, _, if_pos hok, hnew⟩
    · rw [if_neg hok]
      by_cases hr : rndup cnt = 0
      · exact ⟨_, _, _, if_pos hr, hnew⟩
      · exact ⟨_, _, _, if_neg hr, hnew⟩

theorem xdrFixed_conserves (cnt : Nat) :
    Conserves (xdrFixed st .decode cnt) (xdrFixed t .free cnt) (fun _ => 0)
      (List.replicate cnt 0) := by
  have hfree (o : List UInt8) (ok : Bool) : Freeable (xdrFixed t .free cnt) (fun _ => 0) o ok := by
    refine .of_pure (fun u h => ⟨o, ?_, rfl⟩) rfl ok
    by_cases h0 : cnt = 0 <;> simp [xdrFixed, xdrOpaque, h0]
  refine ⟨rfl, hfree _ _, fun s h => ?_⟩
  obtain ⟨ok, new, s', hs', _⟩ :=
    xdrOpaque_decode_any st [] (List.length_replicate (n := cnt) (a := (0 : UInt8))) s
  rw [List.append_nil] at hs'
  exact ⟨ok, _, s', h, by rw [xdrFixed, hs', Option.map_some], (add_zero _).symm, hfree _ _⟩

theorem xdrBytes_freeable (maxsize : Nat) (o : Nat × Option Buffer) (ok : Bool) :
    Freeable (xdrBytes t .free maxsize) (fun o => bufferBlocks o.2) o ok := by
  obtain ⟨size, _ | b⟩ := o
  · exact .of_pure (fun u h => ⟨(size, none), by simp [xdrBytes], rfl⟩) rfl ok
  · intro u h hle
    obtain ⟨h', hfree, hlive⟩ := Heap.free_of_le hle
    exact ⟨true, (size, none), h', by simp [xdrBytes, hfree], hlive, rfl, fun _ => rfl⟩

theorem xdrBytes_conserves (maxsize : Nat) :
    Conserves (xdrBytes st .decode maxsize) (xdrBytes t .free maxsize)
      (fun o => bufferBlocks o.2) (0, none) := by
  refine ⟨rfl, xdrBytes_freeable t maxsize _ _, fun s h => ?_⟩
  rcases hsize : xdrUInt st .decode 0 s with ⟨ok, size, s₁⟩
  have hnone (ok : Bool) (h' : Heap) (hlive : h'.live = h.live) :
      h'.live = h.live + bufferBlocks none ∧
        Freeable (xdrBytes t .free maxsize) (fun o => bufferBlocks o.2) (size, none) ok :=
    ⟨hlive.trans (add_zero _).symm, xdrBytes_freeable t maxsize _ _⟩
  cases ok with
  | false => exact ⟨false, (size, none), s₁, h, by simp only [xdrBytes, hsize], hnone false h rfl⟩
  | true =>
    by_cases hmax : size > maxsize ∧ Op.decode ≠ .free
    · exact ⟨false, (size, none), s₁, h, by simp only [xdrBytes, hsize, if_pos hmax],
        hnone false h rfl⟩
    · by_cases h0 : size = 0
      · exact ⟨true, (size, none), s₁, h,
          by simp only [xdrBytes, hsize, if_neg hmax, if_pos h0], hnone true h rfl⟩
      · rcases h.malloc_cases with ⟨h', hm, hlive⟩ | ⟨b, h', hm, hlive⟩
        · exact ⟨false, (size, none), s₁, h',
            by simp only [xdrBytes, hsize, if_neg hmax, if_neg h0, hm], hnone false h' hlive⟩
        · obtain ⟨ok, new, s₂, hs₂, _⟩ :=
            xdrOpaque_decode_any st [] (h'.length_bytes b size) s₁
          rw [List.append_nil] at hs₂
          refine ⟨ok, (size, some (b, new ++ [])), s₂, h', ?_, ?_, xdrBytes_freeable t maxsize _ _⟩
          · simp only [xdrBytes, hsize, if_neg hmax, if_neg h0, hm, opaqueBlock, hs₂,
              Option.map_some]
          · rw [hlive, add_comm]
            exact (Multiset.singleton_add b h.live).symm

theorem strlen_le (new tail : List UInt8) :
    ∃ len, strlen (new ++ 0 :: tail) = some len ∧ len ≤ new.length := by
  refine ⟨_, if_pos (by simp), ?_⟩
  by_cases h0 : 0 ∈ new
  · rw [List.idxOf_append_of_mem h0]
    exact (List.idxOf_lt_length_of_mem h0).le
  · rw [List.idxOf_append_of_notMem h0]
    simp

theorem xdrString_freeable {maxsize : Nat} (k : Nat) {buf : List UInt8} {len : Nat}
    (hlen : strlen buf = some len) (hmax : len ≤ maxsize) (ok : Bool) :
    Freeable (xdrString t .free maxsize) bufferBlocks (some (k, buf)) ok := by
  intro u h hle
  obtain ⟨h', hfree, hlive⟩ := Heap.free_of_le hle
  have hmod : ¬ len % 2 ^ 32 > maxsize := fun hgt => by
    have := Nat.mod_le len (2 ^ 32)
    omega
  refine ⟨true, none, h', ?_, hlive, rfl, fun _ => rfl⟩
  simp only [xdrString, hlen, Option.bind_some, if_neg hmod, hfree, Option.map_some]

theorem xdrString_conserves (maxsize : Nat) :
    Conserves (xdrString st .decode maxsize) (xdrString t .free maxsize) bufferBlocks none := by
  have hfree (ok : Bool) : Freeable (xdrString t .free maxsize) bufferBlocks none ok :=
    .of_pure (fun u h => ⟨none, rfl, rfl⟩) rfl ok
  refine ⟨rfl, hfree _, fun s h => ?_⟩
  rcases hsize : xdrUInt st .decode 0 s with ⟨ok, size, s₁⟩
  cases ok with
  | false =>
    exact ⟨false, none, s₁, h, by simp only [xdrString, hsize], (add_zero _).symm, hfree _⟩
  | true =>
    have hlt := xdrUInt_decode_lt st hsize
    by_cases hmax : size > maxsize
    · exact ⟨false, none, s₁, h, by simp only [xdrString, hsize, if_pos hmax],
        (add_zero _).symm, hfree _⟩
    · by_cases h0 : (size + 1) % 2 ^ 32 = 0
      · exact ⟨true, none, s₁, h, by simp only [xdrString, hsize, if_neg hmax, if_pos h0],
          (add_zero _).symm, hfree _⟩
      · rcases h.malloc_cases with ⟨h', hm, hlive⟩ | ⟨b, h', hm, hlive⟩
        · exact ⟨false, none, s₁, h', by simp only [xdrString, hsize, if_neg hmax, if_neg h0, hm],
            hlive.trans (add_zero _).symm, hfree _⟩
        · have hbytes : (h'.bytes b (size + 1)).length = size + 1 := h'.length_bytes _ _
          obtain ⟨old, hold, hblock⟩ := h'.bytes_terminated b size
          obtain ⟨ok, new, s₂, hs₂, hnew⟩ := xdrOpaque_decode_any st [0] hold s₁
          rw [← hblock] at hs₂
          obtain ⟨len, hlen, hle⟩ := strlen_le new []
          refine ⟨ok, some (b, new ++ [0]), s₂, h', ?_, ?_,
            xdrString_freeable t b hlen (by omega) ok⟩
          · simp only [xdrString, hsize, if_neg hmax, if_neg h0, hm, stringBlock, hbytes,
              if_neg (show ¬ size + 1 ≤ size by omega), opaqueBlock, hs₂, Option.map_some]
          · rw [hlive, add_comm]
            exact (Multiset.singleton_add b h.live).symm

section

variable {decode : Proc σ α} {free : Proc τ α} {blocks : α → Multiset Nat} {init : α}

theorem xdrArray_freeable {maxsize elsize c size : Nat} (hsize : nodesize elsize c 0 = some size)
    (k : Nat) {l : List α} (hlen : l.length = c) {ok : Bool}
    (hl : Freeable (elements free) (listBlocks blocks) l ok) :
    Freeable (xdrArray t .free maxsize elsize init free) (fun o => arrayBlocks blocks o.2)
      (c, some (k, l)) ok := by
  intro u h hle
  subst hlen
  obtain ⟨ok', l', h₁, hs₁, hlive₁, _, hok⟩ := hl u h ((Multiset.le_cons_self _ k).trans hle)
  obtain ⟨h₂, hfree, hlive₂⟩ := Heap.free_after hle hlive₁
  refine ⟨ok', (l.length, none), h₂, ?_, hlive₂, rfl, hok⟩
  simp [xdrArray, hsize, arrayElements, hs₁, hfree]

theorem xdrArray_conserves (maxsize elsize : Nat) (hc : Conserves decode free blocks init) :
    Conserves (xdrArray st .decode maxsize elsize init decode)
      (xdrArray t .free maxsize elsize init free) (fun o => arrayBlocks blocks o.2) (0, none) := by
  have hnull (c : Nat) : Freeable (xdrArray t .free maxsize elsize init free)
      (fun o => arrayBlocks blocks o.2) (c, none) false := by
    intro u h _
    rcases hn : nodesize elsize c 0 with _ | size
    · exact ⟨false, (c, none), h, by simp [xdrArray, hn], (add_zero _).symm, rfl, nofun⟩
    · exact ⟨true, (c, none), h, by simp [xdrArray, hn], (add_zero _).symm, rfl, nofun⟩
  refine ⟨rfl, hnull 0, fun s h => ?_⟩
  rcases hsize : xdrUInt st .decode 0 s with ⟨ok, c, s₁⟩
  cases ok with
  | false =>
    exact ⟨false, (c, none), s₁, h, by simp only [xdrArray, hsize], (add_zero _).symm, hnull c⟩
  | true =>
    by_cases hmax : c > maxsize ∧ Op.decode ≠ .free
    · exact ⟨false, (c, none), s₁, h, by simp only [xdrArray, hsize, if_pos hmax],
        (add_zero _).symm, hnull c⟩
    · rcases hn : nodesize elsize c 0 with _ | size
      · exact ⟨false, (c, none), s₁, h, by simp only [xdrArray, hsize, if_neg hmax, hn],
          (add_zero _).symm, hnull c⟩
      · by_cases h0 : c = 0
        · refine ⟨true, (c, none), s₁, h, by simp only [xdrArray, hsize, if_neg hmax, hn, if_pos h0],
            (add_zero _).symm, .of_pure (fun u g => ⟨(c, none), ?_, rfl⟩) rfl true⟩
          simp [xdrArray, hn]
        · rcases h.malloc_cases with ⟨h', hm, hlive⟩ | ⟨b, h', hm, hlive⟩
          · exact ⟨false, (c, none), s₁, h',
              by simp only [xdrArray, hsize, if_neg hmax, hn, if_neg h0, hm],
              hlive.trans (add_zero _).symm, hnull c⟩
          · obtain ⟨ok, l, s₂, h₂, hs₂, hlen, hlive₂, hl⟩ := elements_conserve hc c s₁ h'
            refine ⟨ok, (c, some (b, l)), s₂, h₂, ?_, ?_, xdrArray_freeable t hn b hlen hl⟩
            · simp only [xdrArray, hsize, if_neg hmax, hn, if_neg h0, hm, arrayElements]
              simp [hs₂]
            · rw [hlive₂, hlive, arrayBlocks, Multiset.cons_add, Multiset.add_cons]

theorem xdrVector_conserves (n : Nat) (hc : Conserves decode free blocks init) :
    Conserves (xdrVector n decode) (xdrVector n free) (listBlocks blocks)
      (List.replicate n init) := by
  have hfree {l : List α} (hlen : l.length = n) {ok : Bool}
      (hl : Freeable (elements free) (listBlocks blocks) l ok) :
      Freeable (xdrVector n free) (listBlocks blocks) l ok := by
    intro u h hle
    obtain ⟨ok', l', h', hs', hlive, hl', hok⟩ := hl u h hle
    exact ⟨ok', l', h', by simp [xdrVector, ← hlen, hs'], hlive, hl', hok⟩
  refine ⟨listBlocks_replicate hc.init_blocks n,
    hfree List.length_replicate (freeable_replicate hc.init_blocks hc.init_free n), fun s h => ?_⟩
  obtain ⟨ok, l, s', h', hs', hlen, hlive, hl⟩ := elements_conserve hc n s h
  exact ⟨ok, l, s', h', by simp [xdrVector, hs'], hlive, hfree hlen hl⟩

theorem xdrReference_freeable (init : α) (k : Nat) {x : α} {ok : Bool}
    (hx : Freeable free blocks x ok) :
    Freeable (xdrReference .free init free) (referenceBlocks blocks) (some (k, x)) ok := by
  intro u h hle
  obtain ⟨ok', x', h₁, hs₁, hlive₁, _, hok⟩ := hx u h ((Multiset.le_cons_self _ k).trans hle)
  obtain ⟨h₂, hfree, hlive₂⟩ := Heap.free_after hle hlive₁
  exact ⟨ok', none, h₂, by simp [xdrReference, hs₁, hfree], hlive₂, rfl, hok⟩

theorem xdrReference_conserves (hc : Conserves decode free blocks init) :
    Conserves (xdrReference .decode init decode) (xdrReference .free init free)
      (referenceBlocks blocks) none := by
  have hnull (ok : Bool) : Freeable (xdrReference .free init free) (referenceBlocks blocks) none ok :=
    .of_pure (fun u h => ⟨none, rfl, rfl⟩) rfl ok
  refine ⟨rfl, hnull _, fun s h => ?_⟩
  rcases h.malloc_cases with ⟨h', hm, hlive⟩ | ⟨b, h', hm, hlive⟩
  · exact ⟨false, none, s, h', by simp [xdrReference, hm], hlive.trans (add_zero _).symm, hnull _⟩
  · obtain ⟨ok, x, s₁, h₁, hs₁, hlive₁, hx⟩ := hc.decode s h'
    refine ⟨ok, some (b, x), s₁, h₁, by simp [xdrReference, hm, hs₁], ?_,
      xdrReference_freeable init b hx⟩
    rw [hlive₁, hlive, referenceBlocks, Multiset.cons_add, Multiset.add_cons]

theorem xdrPointer_conserves (hc : Conserves decode free blocks init) :
    Conserves (xdrPointer st .decode init decode) (xdrPointer t .free init free)
      (referenceBlocks blocks) none := by
  have hnull (ok : Bool) : Freeable (xdrPointer t .free init free) (referenceBlocks blocks) none ok :=
    .of_pure (fun u h => ⟨none, by simp [xdrPointer], rfl⟩) rfl ok
  have href {o : Option (Nat × α)} {ok : Bool}
      (ho : Freeable (xdrReference .free init free) (referenceBlocks blocks) o ok) :
      Freeable (xdrPointer t .free init free) (referenceBlocks blocks) o ok := by
    cases o with
    | none => exact hnull ok
    | some b =>
      intro u h hle
      obtain ⟨ok', o', h', hs', hrest⟩ := ho u h hle
      exact ⟨ok', o', h', by simp [xdrPointer, hs'], hrest⟩
  refine ⟨rfl, hnull _, fun s h => ?_⟩
  rcases hmore : xdrScalar st .decode .bool 0 s with ⟨ok, more, s₁⟩
  cases ok with
  | false =>
    exact ⟨false, none, s₁, h, by simp [xdrPointer, hmore], (add_zero _).symm, hnull _⟩
  | true =>
    by_cases h0 : more = 0
    · exact ⟨true, none, s₁, h, by simp [xdrPointer, hmore, h0], (add_zero _).symm, hnull _⟩
    · obtain ⟨ok, o, s₂, h₂, hs₂, hlive, ho⟩ := (xdrReference_conserves hc).decode s₁ h
      exact ⟨ok, o, s₂, h₂, by simp [xdrPointer, hmore, h0, hs₂], hlive, href ho⟩

theorem xdrPair_conserves {init' : β} {decode' : Proc σ β} {free' : Proc τ β}
    {blocks' : β → Multiset Nat} (hc : Conserves decode free blocks init)
    (hc' : Conserves decode' free' blocks' init') :
    Conserves (xdrPair decode decode') (xdrPair free free') (pairBlocks blocks blocks')
      (init, init') := by
  have hinit {x : α} (hx : Freeable free blocks x false) :
      Freeable (xdrPair free free') (pairBlocks blocks blocks') (x, init') false :=
    hx.pair hc'.init_free (.inr ⟨rfl, hc'.init_blocks⟩)
  refine ⟨?_, hinit hc.init_free, fun s h => ?_⟩
  · rw [pairBlocks, hc.init_blocks, hc'.init_blocks, add_zero]
  · obtain ⟨ok₁, x, s₁, h₁, hs₁, hlive₁, hx⟩ := hc.decode s h
    cases ok₁ with
    | false =>
      refine ⟨false, (x, init'), s₁, h₁, by simp [xdrPair, hs₁], ?_, hinit hx⟩
      rw [hlive₁, pairBlocks, hc'.init_blocks, add_zero]
    | true =>
      obtain ⟨ok₂, y, s₂, h₂, hs₂, hlive₂, hy⟩ := hc'.decode s₁ h₁
      refine ⟨ok₂, (x, y), s₂, h₂, by simp [xdrPair, hs₁, hs₂], ?_, hx.pair hy (.inl rfl)⟩
      rw [hlive₂, hlive₁, pairBlocks, add_assoc]

theorem xdrUnion_conserves {α : Nat → Type} (values : List Int) (dfault : Bool) {init : ∀ i, α i}
    {decode : ∀ i, Proc σ (α i)} {free : ∀ i, Proc τ (α i)}
    {blocks : ∀ i, α i → Multiset Nat}
    (hc : ∀ i, Conserves (decode i) (free i) (blocks i) (init i)) :
    Conserves (xdrUnion st .decode values dfault init decode)
      (xdrUnion t .free values dfault init free) (fun o => unionBlocks blocks o.2) (0, none) := by
  -- A union without a part: its memory is zero, and the part that the value chooses is so too.
  have hnull (dscm : Int) : Freeable (xdrUnion t .free values dfault init free)
      (fun o => unionBlocks blocks o.2) (dscm, none) false := by
    intro u h _
    rcases hchoose : choose values dfault dscm with _ | i
    · exact ⟨false, (dscm, none), h, by simp [xdrUnion, hchoose], (add_zero _).symm, rfl, nofun⟩
    · have h0 : blocks i (init i) ≤ h.live := (hc i).init_blocks ▸ Multiset.zero_le _
      obtain ⟨ok, x, h', hs', hlive, hx, -⟩ := (hc i).init_free u h h0
      refine ⟨ok, (dscm, some ⟨i, x⟩), h', by simp [xdrUnion, hchoose, unionPart, hs'], ?_, hx, nofun⟩
      rw [hlive, (hc i).init_blocks]
      rfl
  refine ⟨rfl, hnull 0, fun s h => ?_⟩
  rcases hdscm : xdrScalar st .decode .enum 0 s with ⟨ok, dscm, s₁⟩
  cases ok with
  | false =>
    exact ⟨false, (dscm, none), s₁, h, by simp [xdrUnion, hdscm], (add_zero _).symm, hnull dscm⟩
  | true =>
    rcases hchoose : choose values dfault dscm with _ | i
    · exact ⟨false, (dscm, none), s₁, h, by simp [xdrUnion, hdscm, hchoose], (add_zero _).symm,
        hnull dscm⟩
    · obtain ⟨ok, x, s₂, h₂, hs₂, hlive, hx⟩ := (hc i).decode s₁ h
      refine ⟨ok, (dscm, some ⟨i, x⟩), s₂, h₂, by simp [xdrUnion, hdscm, hchoose, unionPart, hs₂],
        hlive, fun u g hle => ?_⟩
      obtain ⟨ok', x', g', hs', hlive', hx', hok⟩ := hx u g hle
      refine ⟨ok', (dscm, some ⟨i, x'⟩), g', ?_, hlive', hx', hok⟩
      simp [xdrUnion, hchoose, unionPart_self, hs']

end

/-- Decoding into an object whose memory is zero, and freeing what that leaves. -/
theorem xdr_conserves (d : Desc) :
    Conserves (xdr st .decode d) (xdr t .free d) (blocks d) (zero d) := by
  have hpure {d : Desc} (hblocks : ∀ o, blocks d o = 0)
      (hfree : ∀ o u h, xdr t .free d o u h = some (true, o, u, h))
      (hdecode : ∀ s h, ∃ ok o s', xdr st .decode d (zero d) s h = some (ok, o, s', h)) :
      Conserves (xdr st .decode d) (xdr t .free d) (blocks d) (zero d) := by
    have hall (o : Obj d) (ok : Bool) : Freeable (xdr t .free d) (blocks d) o ok :=
      .of_pure (fun u h => ⟨o, hfree o u h, hblocks o⟩) (hblocks o) ok
    refine ⟨hblocks _, hall _ _, fun s h => ?_⟩
    obtain ⟨ok, o, s', hs'⟩ := hdecode s h
    exact ⟨ok, o, s', h, hs', by rw [hblocks, add_zero], hall _ _⟩
  induction d with
  | void => exact hpure (fun _ => rfl) (fun _ _ _ => rfl) fun s h => ⟨true, (), s, rfl⟩
  | scalar k => exact hpure (fun _ => rfl) (fun _ _ _ => rfl) fun s h => ⟨_, _, _, rfl⟩
  | fixed cnt => exact xdrFixed_conserves st t cnt
  | bytes maxsize => exact xdrBytes_conserves st t maxsize
  | string maxsize => exact xdrString_conserves st t maxsize
  | array maxsize elsize d ih => exact xdrArray_conserves st t maxsize elsize ih
  | vector n d ih => exact xdrVector_conserves n ih
  | pair d e ihd ihe => exact xdrPair_conserves ihd ihe
  | union values dfault part ih => exact xdrUnion_conserves st t values dfault fun i => ih i
  | reference d ih => exact xdrReference_conserves ih
  | pointer d ih => exact xdrPointer_conserves st t ih

/-- **`xdr_free` gives back what decoding took**: whatever the stream says and whichever requests for
memory are refused, decoding does not fault and adds the blocks of the object that it leaves, and from
any heap with these blocks `xdr_free` does not fault, takes away just these and leaves none in the
object; when decoding succeeds, so does freeing. -/
theorem xdr_decode_free (d : Desc) (s : σ) (h : Heap) :
    ∃ ok o s' h', xdr st .decode d (zero d) s h = some (ok, o, s', h') ∧
      h'.live = h.live + blocks d o ∧
      ∀ u g, blocks d o ≤ g.live → ∃ ok' o' g', xdrFree t d o u g = some (ok', o', u, g') ∧
        g.live = g'.live + blocks d o ∧ blocks d o' = 0 ∧ (ok = true → ok' = true) :=
  (xdr_conserves st t d).decode s h

end

end Dietlibc.Rpc
