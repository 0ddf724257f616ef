import Dietlibc.Search.Hsearch

/-!
# The hash table refines a finite map

`Repr hash s chains m`: from the heads of the table, `next` pointers visit the buckets
`chains`, each bucket in the chain of its hash value, and the entries of these buckets are
exactly `m`, an association list with distinct keys. Each operation of `hsearch_r` takes a
represented map to a represented map; a resize (`rehash_repr`) keeps `m` as it is.

The abstract side is the history of calls and replies: `entered h` lists the entries whose
`ENTER` succeeded while their key was absent.
-/

namespace Dietlibc.Search

variable {δ : Type}

/-- The buckets of a table of `n` chains. -/
def buckets (n : Nat) (chains : Nat → List Addr) : List Addr := (List.range n).flatMap chains

/-- The `next` pointers of a heap. -/
def nextOf (heap : Addr → Bucket δ) (a : Addr) : Addr := (heap a).next

/-- The table represents the association list `m`. -/
structure Repr (hash : List UInt8 → List UInt8 → UInt64) (s : St δ) (chains : Nat → List Addr)
    (m : List (Entry δ)) : Prop where
  size_pos : 0 < s.size
  links : ∀ i < s.size, Links (nextOf s.heap) 0 (s.table i) (chains i)
  hv : ∀ i < s.size, ∀ a ∈ chains i, (s.heap a).hv = hash s.key (s.heap a).e.key ∧
    (s.heap a).hv.toNat % s.size = i
  live : ∀ i < s.size, ∀ a ∈ chains i, a ∈ s.live
  entries : ((buckets s.size chains).map fun a => (s.heap a).e).Perm m
  keys : (m.map Entry.key).Nodup
  filled : s.filled = m.length

/-! ## Lists of chains -/

theorem mem_buckets {n : Nat} {chains : Nat → List Addr} {a : Addr} :
    a ∈ buckets n chains ↔ ∃ i < n, a ∈ chains i := by
  simp [buckets]

theorem buckets_succ (n : Nat) (chains : Nat → List Addr) :
    buckets (n + 1) chains = buckets n chains ++ chains n := by
  simp [buckets, List.range_succ]

theorem buckets_congr {n : Nat} {f g : Nat → List Addr} (h : ∀ i < n, f i = g i) :
    buckets n f = buckets n g := by
  unfold buckets
  exact List.flatMap_congr fun i hi => h i (List.mem_range.mp hi)

theorem length_le_buckets {n i : Nat} (chains : Nat → List Addr) (hi : i < n) :
    (chains i).length ≤ (buckets n chains).length := by
  induction n with
  | zero => omega
  | succ n ih =>
    rw [buckets_succ, List.length_append]
    by_cases h : i = n
    · subst h; omega
    · have := ih (by omega); omega

/-- A chain changed up to one more bucket. -/
theorem buckets_update {n i : Nat} (chains : Nat → List Addr) (hi : i < n) {l : List Addr}
    {p : Addr} (hl : l.Perm (p :: chains i)) :
    (buckets n (Function.update chains i l)).Perm (p :: buckets n chains) := by
  induction n with
  | zero => omega
  | succ n ih =>
    rw [buckets_succ, buckets_succ]
    by_cases h : i = n
    · subst h
      rw [Function.update_self, buckets_congr (g := chains)
        (fun j hj => Function.update_of_ne (by omega) _ _)]
      exact (hl.append_left _).trans List.perm_middle
    · rw [Function.update_of_ne (Ne.symm h)]
      exact (ih (by omega)).append_right _

/-! ## Following a chain -/

/-- The slot at the end of a chain that starts in slot `b`. -/
def lastSlot : Slot → List Addr → Slot
  | b, [] => b
  | _, a :: l => lastSlot (.link a) l

theorem walk_eq {s : St δ} {found : Addr → Bool} {fuel : Nat} :
    ∀ {b : Slot} {l : List Addr}, Links (nextOf s.heap) 0 (load s b) l → l.length < fuel →
      walk s found fuel b = some (match l.find? found with
        | some a => .inl a
        | none => .inr (lastSlot b l)) := by
  induction fuel with
  | zero => intro b l _ hf; omega
  | succ fuel ih =>
    intro b l h hf
    unfold walk
    by_cases hz : load s b = 0
    · rw [if_pos hz]
      rw [hz] at h
      rw [h.head_nil]
      rfl
    · obtain ⟨t, rfl, ht⟩ := h.head_ne hz
      rw [if_neg hz, List.find?_cons]
      cases hfd : found (load s b) with
      | true => simp
      | false =>
        simp only [Bool.false_eq_true, if_false]
        exact ih (b := .link (load s b)) ht (by simpa using hf)

theorem lastSlot_snoc (b : Slot) (l : List Addr) (x : Addr) : lastSlot b (l ++ [x]) = .link x := by
  induction l generalizing b with
  | nil => rfl
  | cons a l ih => exact ih _

/-- Storing into a slot writes no entry and no hash value. -/
theorem store_entry (s : St δ) (b : Slot) (p a : Addr) :
    ((store s b p).heap a).e = (s.heap a).e ∧ ((store s b p).heap a).hv = (s.heap a).hv := by
  cases b with
  | entry i => exact ⟨rfl, rfl⟩
  | link x =>
    unfold store
    by_cases h : a = x
    · subst h; simp
    · simp [Function.update_of_ne h]

theorem store_load (s : St δ) (b : Slot) : store s b (load s b) = s := by
  cases b with
  | entry i => simp [store, load]
  | link x => simp [store, load]

theorem load_lastSlot {s : St δ} {b : Slot} {l : List Addr}
    (h : Links (nextOf s.heap) 0 (load s b) l) : load s (lastSlot b l) = 0 := by
  induction l generalizing b with
  | nil =>
    rw [lastSlot]
    generalize load s b = x at h
    cases h
    rfl
  | cons a l ih =>
    generalize hx : load s b = x at h
    cases h with
    | cons hne ht => exact ih (b := .link a) ht

/-! ## Growing the table -/

/-- The state of a resize to `i` chains: the buckets `done` are on the new chains `nc`, the
others are as they were. -/
structure Moved (i : Nat) (heap₀ : Addr → Bucket δ) (done : List Addr)
    (p : (Addr → Bucket δ) × (Nat → Addr)) (nc : Nat → List Addr) : Prop where
  links : ∀ m < i, Links (nextOf p.1) 0 (p.2 m) (nc m)
  idx : ∀ m < i, ∀ a ∈ nc m, (heap₀ a).hv.toNat % i = m
  perm : (buckets i nc).Perm done
  rest : ∀ a, a ∉ done → p.1 a = heap₀ a
  same : ∀ a, (p.1 a).e = (heap₀ a).e ∧ (p.1 a).hv = (heap₀ a).hv

theorem Moved.start (i : Nat) (heap₀ : Addr → Bucket δ) :
    Moved i heap₀ [] (heap₀, fun _ => 0) fun _ => [] where
  links _ _ := .nil
  idx _ _ _ ha := by cases ha
  perm := by simp [buckets]
  rest _ _ := rfl
  same _ := ⟨rfl, rfl⟩

/-- One bucket pushed onto its new chain. -/
theorem Moved.push {i : Nat} {heap₀ : Addr → Bucket δ} {done : List Addr}
    {heap : Addr → Bucket δ} {n : Nat → Addr} {nc : Nat → List Addr} (hi : 0 < i)
    (h : Moved i heap₀ done (heap, n) nc) {a : Addr} (ha : a ≠ 0) (hd : a ∉ done) :
    Moved i heap₀ (done ++ [a])
      (Function.update heap a { heap a with next := n ((heap a).hv.toNat % i) },
        Function.update n ((heap a).hv.toNat % i) a)
      (Function.update nc ((heap a).hv.toNat % i) (a :: nc ((heap a).hv.toNat % i))) := by
  have hm : (heap a).hv.toNat % i < i := Nat.mod_lt _ hi
  have hnew : ∀ m < i, ∀ x ∈ nc m, x ≠ a := by
    rintro m hmi x hx rfl
    exact hd (h.perm.mem_iff.mp (mem_buckets.mpr ⟨m, hmi, hx⟩))
  have hag : ∀ m < i, ∀ x ∈ nc m,
      nextOf (Function.update heap a { heap a with next := n ((heap a).hv.toNat % i) }) x =
        nextOf heap x := by
    intro m hmi x hx
    unfold nextOf
    rw [Function.update_of_ne (hnew m hmi x hx)]
  generalize hidx : (heap a).hv.toNat % i = k at *
  constructor
  · intro m hmi
    by_cases hk : m = k
    · subst hk
      simp only [Function.update_self]
      exact (h.links m hmi).push ha (by simp [nextOf]) (hag m hmi)
    · simp only [Function.update_of_ne hk]
      exact (h.links m hmi).frame (hag m hmi)
  · intro m hmi x hx
    by_cases hk : m = k
    · subst hk
      rw [Function.update_self] at hx
      rcases List.mem_cons.mp hx with rfl | hx
      · rw [← (h.same x).2]; exact hidx
      · exact h.idx m hmi x hx
    · rw [Function.update_of_ne hk] at hx
      exact h.idx m hmi x hx
  · refine (buckets_update nc hm (List.Perm.refl _)).trans ?_
    exact (h.perm.cons a).trans (List.perm_append_singleton a done).symm
  · intro x hx
    simp only [List.mem_append, List.mem_singleton, not_or] at hx
    rw [← h.rest x hx.1]
    exact Function.update_of_ne hx.2 _ _
  · intro x
    by_cases hx : x = a
    · subst hx; simpa using h.same x
    · simpa [Function.update_of_ne hx] using h.same x

theorem moveChain_moved {i : Nat} (hi : 0 < i) {heap₀ : Addr → Bucket δ} {l : List Addr} :
    ∀ {fuel : Nat} {B : Addr} {done : List Addr} {p : (Addr → Bucket δ) × (Nat → Addr)}
      {nc : Nat → List Addr}, Moved i heap₀ done p nc → Links (nextOf heap₀) 0 B l →
      (∀ a ∈ l, a ∉ done) → l.length < fuel →
      ∃ p' nc', moveChain i fuel p B = some p' ∧ Moved i heap₀ (done ++ l) p' nc' := by
  induction l with
  | nil =>
    intro fuel B done p nc h hB _ hf
    cases hB
    obtain ⟨k, rfl⟩ : ∃ k, fuel = k + 1 := ⟨fuel - 1, by omega⟩
    refine ⟨p, nc, ?_, by simpa using h⟩
    unfold moveChain
    simp
  | cons a l ih =>
    intro fuel B done p nc h hB hd hf
    obtain ⟨k, rfl⟩ : ∃ k, fuel = k + 1 := ⟨fuel - 1, by omega⟩
    obtain ⟨heap, n⟩ := p
    have hnd := hB.nodup
    cases hB with
    | cons hne ht =>
      have had : a ∉ done := hd a List.mem_cons_self
      have hnext : (heap a).next = nextOf heap₀ a := congrArg Bucket.next (h.rest a had)
      obtain ⟨p', nc', he, hm⟩ := ih (h.push hi hne had) ht
        (fun x hx => by
          have hxa : x ≠ a := fun e => (List.nodup_cons.mp hnd).1 (e ▸ hx)
          simpa [hxa] using hd x (List.mem_cons_of_mem _ hx))
        (show l.length < k by simpa using hf)
      refine ⟨p', nc', ?_, by simpa using hm⟩
      rw [moveChain, if_neg hne, hnext]
      exact he

section

variable {hash : List UInt8 → List UInt8 → UInt64} {s : St δ} {chains : Nat → List Addr}
  {m : List (Entry δ)}

theorem Repr.length_buckets (h : Repr hash s chains m) :
    (buckets s.size chains).length = s.filled := by
  rw [h.filled, ← h.entries.length_eq, List.length_map]

/-- Every chain is shorter than the fuel of its walks. -/
theorem Repr.chain_lt (h : Repr hash s chains m) {i : Nat} (hi : i < s.size) :
    (chains i).length < s.filled + 1 := by
  have := length_le_buckets chains hi
  rw [h.length_buckets] at this
  omega

theorem Repr.moved (h : Repr hash s chains m) {i : Nat} (hi : 0 < i) :
    ∀ {k : Nat}, k ≤ s.size → ∃ p nc,
      (List.range k).foldlM (fun p j => moveChain i (s.filled + 1) p (s.table j))
        (s.heap, fun _ => 0) = some p ∧ Moved i s.heap (buckets k chains) p nc
  | 0, _ => ⟨_, _, rfl, Moved.start i s.heap⟩
  | k + 1, hk => by
    obtain ⟨p, nc, he, hm⟩ := h.moved hi (k := k) (by omega)
    obtain ⟨p', nc', he', hm'⟩ := moveChain_moved hi hm (h.links k (by omega))
      (fun a ha hd => by
        -- a bucket is in the chain of its hash value only
        obtain ⟨j, hj, haj⟩ := mem_buckets.mp hd
        have h1 := (h.hv k (by omega) a ha).2
        have h2 := (h.hv j (by omega) a haj).2
        omega)
      (h.chain_lt (by omega))
    refine ⟨p', nc', ?_, by rw [buckets_succ]; exact hm'⟩
    rw [List.range_succ, List.foldlM_append, he]
    simpa using he'

/-- A resize neither loses nor duplicates an entry. -/
theorem rehash_repr (h : Repr hash s chains m) {i : Nat} (hi : 0 < i) :
    ∃ s' chains', rehash s i = some s' ∧ Repr hash s' chains' m ∧ s'.size = i ∧
      s'.key = s.key ∧ s'.live = s.live ∧ ∀ a, (s'.heap a).e = (s.heap a).e := by
  obtain ⟨p, nc, he, hm⟩ := h.moved hi (le_refl s.size)
  refine ⟨{ s with heap := p.1, table := p.2, size := i }, nc, by rw [rehash, he]; rfl, ?_, rfl,
    rfl, rfl, fun a => (hm.same a).1⟩
  have hold : ∀ j < i, ∀ a ∈ nc j, ∃ k < s.size, a ∈ chains k := fun j hj a ha =>
    mem_buckets.mp (hm.perm.mem_iff.mp (mem_buckets.mpr ⟨j, hj, ha⟩))
  refine ⟨hi, hm.links, fun j hj a ha => ?_, fun j hj a ha => ?_, ?_, h.keys, h.filled⟩
  · obtain ⟨k, hk, hak⟩ := hold j hj a ha
    refine ⟨?_, ?_⟩
    · rw [(hm.same a).2, (hm.same a).1]; exact (h.hv k hk a hak).1
    · rw [(hm.same a).2]; exact hm.idx j hj a ha
  · obtain ⟨k, hk, hak⟩ := hold j hj a ha
    exact h.live k hk a hak
  · have : (fun a => (p.1 a).e) = fun a => (s.heap a).e := funext fun a => (hm.same a).1
    simp only [this]
    exact (hm.perm.map _).trans h.entries

theorem primes_find {n : Nat} (h : n < 2097143) : ∃ i, primes.find? (n < ·) = some i ∧ 0 < i := by
  have hm : (2097143 : Nat) ∈ primes := by decide
  obtain ⟨i, hi⟩ := Option.isSome_iff_exists.mp
    (List.find?_isSome (p := fun i => decide (n < i)) |>.mpr ⟨2097143, hm, by simpa using h⟩)
  refine ⟨i, hi, ?_⟩
  have := List.find?_some hi
  simp only [decide_eq_true_eq] at this
  omega

/-- The table after the attempt to resize, and the slot that ends the chain for `hv`. -/
theorem grow_repr (h : Repr hash s chains m) (hv : UInt64) (callocOk : Bool) :
    ∃ s' chains', grow s hv callocOk (lastSlot (.entry (hv.toNat % s.size))
        (chains (hv.toNat % s.size))) =
      some (s', lastSlot (.entry (hv.toNat % s'.size)) (chains' (hv.toNat % s'.size))) ∧
      Repr hash s' chains' m ∧ s'.key = s.key ∧ s'.live = s.live ∧
      ∀ a, (s'.heap a).e = (s.heap a).e := by
  unfold grow
  split
  · next hc =>
    obtain ⟨i, hfind, hi⟩ := primes_find hc.1
    rw [hfind, Option.bind_some]
    cases callocOk with
    | false => exact ⟨s, chains, rfl, h, rfl, rfl, fun _ => rfl⟩
    | true =>
      obtain ⟨s', chains', he, hr, hsz, hk, hl, hent⟩ := rehash_repr h hi
      refine ⟨s', chains', ?_, hr, hk, hl, hent⟩
      have hlt : hv.toNat % s'.size < s'.size := Nat.mod_lt _ hr.size_pos
      have hnone : (chains' (hv.toNat % s'.size)).find? (fun _ => false) = none := by simp
      rw [if_pos rfl, he, Option.bind_some, walk_eq (hr.links _ hlt) (hr.chain_lt hlt), hnone]
      rfl
  · exact ⟨s, chains, rfl, h, rfl, rfl, fun _ => rfl⟩

/-- A fresh bucket hung behind a chain: the chains are linked as before, this one with the bucket. -/
theorem hang_links (h : Repr hash s chains m) {k : Nat} (hk : k < s.size) {p : Addr} (hp : p ≠ 0)
    (hold : ∀ i < s.size, ∀ a ∈ chains i, a ≠ p) (e : Entry δ) (hv : UInt64) {s' : St δ}
    (hs' : s' = store s (lastSlot (.entry k) (chains k)) p) {i : Nat} (hi : i < s.size) :
    Links (nextOf (Function.update s'.heap p ⟨0, e, hv⟩)) 0 (s'.table i)
      (Function.update chains k (chains k ++ [p]) i) := by
  have hoff : ∀ x, x ≠ p → nextOf (Function.update s'.heap p ⟨0, e, hv⟩) x =
      nextOf s'.heap x := fun x hx => by unfold nextOf; rw [Function.update_of_ne hx]
  have hat : nextOf (Function.update s'.heap p ⟨0, e, hv⟩) p = 0 := by simp [nextOf]
  have hl := h.links i hi
  rcases List.eq_nil_or_concat (chains k) with hnil | ⟨t, x, hcat⟩
  · -- an empty chain: the table entry is written
    rw [hnil] at hs'
    simp only [lastSlot, store] at hs'
    by_cases hik : i = k
    · subst hik
      rw [hs']
      simp only [Function.update_self, hnil, List.nil_append]
      refine .cons hp ?_
      rw [hs'] at hat
      rw [hat]
      exact .nil
    · rw [hs'] at hoff ⊢
      simp only [Function.update_of_ne hik]
      exact hl.frame fun y hy => hoff y (hold i hi y hy)
  · -- otherwise the last bucket's link is written
    rw [List.concat_eq_append] at hcat
    rw [hcat, lastSlot_snoc] at hs'
    have htab : s'.table = s.table := by rw [hs']; rfl
    have hnx : ∀ y, y ≠ x → nextOf s'.heap y = nextOf s.heap y := fun y hy => by
      rw [hs']; simp [store, nextOf, Function.update_of_ne hy]
    have hxp : nextOf s'.heap x = p := by rw [hs']; simp [store, nextOf]
    have hxk : x ∈ chains k := by rw [hcat]; simp
    rw [htab]
    by_cases hik : i = k
    · subst hik
      have hnd := hl.nodup
      rw [hcat] at hl hnd
      rw [Function.update_self, hcat, List.append_assoc]
      refine hl.snoc hp ?_ hat ?_
      · rw [hoff x (hold i hi x hxk), hxp]
      · intro y hy
        have hyx : y ≠ x := fun e => by
          subst e
          exact (List.disjoint_of_nodup_append hnd) hy (List.mem_singleton.mpr rfl)
        rw [hoff y (hold i hi y (by rw [hcat]; simp [hy])), hnx y hyx]
    · rw [Function.update_of_ne hik]
      refine hl.frame fun y hy => ?_
      have hyx : y ≠ x := fun e => by
        subst e
        have h1 := (h.hv i hi y hy).2
        have h2 := (h.hv k hk y hxk).2
        exact hik (h1.symm.trans h2)
      rw [hoff y (hold i hi y hy), hnx y hyx]

/-- A bucket of the chains then is the fresh one, or was in its chain before. -/
theorem mem_hung {n k p i a : Nat} (hold : ∀ i < n, ∀ a ∈ chains i, a ≠ p) (hi : i < n)
    (ha : a ∈ Function.update chains k (chains k ++ [p]) i) :
    (a = p ∧ i = k) ∨ (a ≠ p ∧ a ∈ chains i) := by
  by_cases hik : i = k
  · subst hik
    rw [Function.update_self] at ha
    rcases List.mem_append.mp ha with ha | ha
    · exact .inr ⟨hold i hi a ha, ha⟩
    · exact .inl ⟨List.mem_singleton.mp ha, rfl⟩
  · rw [Function.update_of_ne hik] at ha
    exact .inr ⟨hold i hi a ha, ha⟩

/-- A fresh bucket hung behind the chain of its hash value. -/
theorem insert_repr (h : Repr hash s chains m) {c : Call δ} {hv : UInt64}
    (hhv : hv = hash s.key c.item.key) (hnew : c.item.key ∉ m.map Entry.key)
    (hp : c.malloc.pick s.live ≠ 0) :
    let r := insert s hv c (lastSlot (.entry (hv.toNat % s.size)) (chains (hv.toNat % s.size)))
    r.1 = some (c.malloc.pick s.live) ∧ (r.2.heap (c.malloc.pick s.live)).e = c.item ∧
      (∃ chains', Repr hash r.2 chains' (m ++ [c.item])) ∧ r.2.key = s.key ∧
      c.malloc.pick s.live ∈ r.2.live ∧ (∀ a ∈ s.live, a ∈ r.2.live ∧ (r.2.heap a).e = (s.heap a).e) := by
  have hk : hv.toNat % s.size < s.size := Nat.mod_lt _ h.size_pos
  have hfresh := c.malloc.fresh s.live hp
  generalize hpe : c.malloc.pick s.live = p at *
  generalize hke : hv.toNat % s.size = k at *
  obtain ⟨s', hs'⟩ : ∃ s', s' = store s (lastSlot (.entry k) (chains k)) p := ⟨_, rfl⟩
  have hold : ∀ i < s.size, ∀ a ∈ chains i, a ≠ p := fun i hi a ha e =>
    hfresh (e ▸ h.live i hi a ha)
  have hfix : s'.size = s.size ∧ s'.key = s.key ∧ s'.live = s.live ∧ s'.filled = s.filled := by
    rw [hs']; cases lastSlot (.entry k) (chains k) <;> exact ⟨rfl, rfl, rfl, rfl⟩
  obtain ⟨hsz, hkey, hlive, hfill⟩ := hfix
  have hent : ∀ a, (s'.heap a).e = (s.heap a).e ∧ (s'.heap a).hv = (s.heap a).hv := fun a => by
    rw [hs']; exact store_entry s _ p a
  simp only [insert, hpe, if_neg hp, ← hs']
  refine ⟨trivial, by simp, ⟨Function.update chains k (chains k ++ [p]), ?_⟩, hkey,
    List.mem_cons_self, ?_⟩
  · have hlinks : ∀ i < s'.size, Links (nextOf (Function.update s'.heap p ⟨0, c.item, hv⟩)) 0
        (s'.table i) (Function.update chains k (chains k ++ [p]) i) := fun i hi =>
      hang_links h hk hp hold c.item hv hs' (hsz ▸ hi)
    refine ⟨by simp only [hsz]; exact h.size_pos, hlinks, ?_, ?_, ?_, ?_, ?_⟩
    · intro i hi a ha
      simp only [hsz, hkey] at hi ⊢
      rcases mem_hung hold hi ha with ⟨rfl, rfl⟩ | ⟨hap, ha⟩
      · simpa using ⟨hhv, hke⟩
      · simp only [Function.update_of_ne hap, (hent a).1, (hent a).2]
        exact h.hv i hi a ha
    · intro i hi a ha
      simp only [hsz] at hi
      rcases mem_hung hold hi ha with ⟨rfl, rfl⟩ | ⟨-, ha⟩
      · exact List.mem_cons_self
      · simp only [hlive]
        exact List.mem_cons_of_mem _ (h.live i hi a ha)
    · have hperm := buckets_update chains hk (l := chains k ++ [p]) (p := p)
        (List.perm_append_singleton p _)
      simp only [hsz]
      refine (hperm.map _).trans ?_
      rw [List.map_cons, Function.update_self]
      refine List.Perm.trans ?_ (List.perm_append_singleton c.item m).symm
      refine List.Perm.cons _ (List.Perm.trans (List.Perm.of_eq ?_) h.entries)
      refine List.map_congr_left fun a ha => ?_
      obtain ⟨i, hi, hai⟩ := mem_buckets.mp ha
      rw [Function.update_of_ne (hold i hi a hai), (hent a).1]
    · rw [List.map_append, List.nodup_append]
      refine ⟨h.keys, by simp, ?_⟩
      intro a ha b hb e
      simp only [List.map_cons, List.map_nil, List.mem_singleton] at hb
      exact hnew (hb ▸ e ▸ ha)
    · simp [hfill, h.filled]
  · intro a ha
    have hap : a ≠ p := fun e => hfresh (e ▸ ha)
    rw [Function.update_of_ne hap, hlive, (hent a).1]
    exact ⟨List.mem_cons_of_mem _ ha, rfl⟩

/-- The search loop finds the bucket of the key, if there is one. -/
theorem find_repr (h : Repr hash s chains m) (key : List UInt8) :
    let hv := hash s.key key
    (∃ a, (chains (hv.toNat % s.size)).find? (isFound s hv key) = some a ∧ a ∈ s.live ∧
      (s.heap a).e ∈ m ∧ (s.heap a).e.key = key) ∨
    ((chains (hv.toNat % s.size)).find? (isFound s hv key) = none ∧ key ∉ m.map Entry.key) := by
  intro hv
  have hk : hv.toNat % s.size < s.size := Nat.mod_lt _ h.size_pos
  cases hf : (chains (hv.toNat % s.size)).find? (isFound s hv key) with
  | some a =>
    have ha := List.mem_of_find?_eq_some hf
    have hfound := List.find?_some hf
    simp only [isFound, Bool.and_eq_true, beq_iff_eq] at hfound
    refine .inl ⟨a, rfl, h.live _ hk a ha, ?_, hfound.2⟩
    exact h.entries.mem_iff.mp (List.mem_map_of_mem
      (f := fun a => (s.heap a).e) (mem_buckets.mpr ⟨_, hk, ha⟩))
  | none =>
    refine .inr ⟨rfl, fun hm => ?_⟩
    obtain ⟨e, he, rfl⟩ := List.mem_map.mp hm
    obtain ⟨a, ha, rfl⟩ := List.mem_map.mp (h.entries.mem_iff.mpr he)
    obtain ⟨i, hi, hai⟩ := mem_buckets.mp ha
    obtain ⟨h1, h2⟩ := h.hv i hi a hai
    have hidx : hv.toNat % s.size = i := by rw [← h2, h1]
    rw [hidx] at hf
    have := List.find?_eq_none.mp hf a hai
    simp [isFound, h1, hv] at this

/-- What a call does to the map it finds, and what it answers. -/
inductive Reply (m : List (Entry δ)) (c : Call δ) : Option (Entry δ) → List (Entry δ) → Prop
  | present {e : Entry δ} : e ∈ m → e.key = c.item.key → Reply m c (some e) m
  | absent : c.item.key ∉ m.map Entry.key → c.action = .find → Reply m c none m
  | entered : c.item.key ∉ m.map Entry.key → c.action = .enter →
      Reply m c (some c.item) (m ++ [c.item])
  | failed {live : List Addr} : c.item.key ∉ m.map Entry.key → c.action = .enter →
      c.malloc.pick live = 0 → Reply m c none m

/-- One call of `hsearch_r` on a table that represents `m`. Entries at addresses handed out
before the call keep their contents. -/
theorem hsearchR_step (h : Repr hash s chains m) (c : Call δ) :
    ∃ r s' chains' m', hsearchR hash s c = some (r, s') ∧ Repr hash s' chains' m' ∧
      Reply m c (r.map fun a => (s'.heap a).e) m' ∧ s'.key = s.key ∧
      (∀ a, r = some a → a ∈ s'.live) ∧
      (∀ a ∈ s.live, a ∈ s'.live ∧ (s'.heap a).e = (s.heap a).e) := by
  have hk : (hash s.key c.item.key).toNat % s.size < s.size := Nat.mod_lt _ h.size_pos
  have hw := @walk_eq _ s (isFound s (hash s.key c.item.key) c.item.key) _
    (.entry ((hash s.key c.item.key).toNat % s.size)) _ (h.links _ hk) (h.chain_lt hk)
  unfold hsearchR
  simp only [hw, Option.bind_some]
  rcases find_repr h c.item.key with ⟨a, hf, hl, hm, hkey⟩ | ⟨hf, hnot⟩
  · rw [hf]
    refine ⟨some a, s, chains, m, rfl, h, .present hm hkey, rfl, ?_, fun _ ha => ⟨ha, rfl⟩⟩
    rintro b hb
    cases hb
    exact hl
  · rw [hf]
    cases hact : c.action with
    | find =>
      refine ⟨none, { s with errno := ESRCH }, chains, m, rfl, ?_, .absent hnot hact, rfl,
        fun _ ha => (by cases ha), fun _ ha => ⟨ha, rfl⟩⟩
      exact ⟨h.size_pos, h.links, h.hv, h.live, h.entries, h.keys, h.filled⟩
    | enter =>
      obtain ⟨s1, chains1, hg, hr, hkey, hlive, hent⟩ :=
        grow_repr h (hash s.key c.item.key) c.callocOk
      simp only [hg, Option.map_some]
      by_cases hp : c.malloc.pick s1.live = 0
      · have hk1 : (hash s.key c.item.key).toNat % s1.size < s1.size := Nat.mod_lt _ hr.size_pos
        -- the slot already holds `NULL`, so the failed `malloc` stores nothing new
        have hz := load_lastSlot
          (b := .entry ((hash s.key c.item.key).toNat % s1.size)) (hr.links _ hk1)
        refine ⟨none, s1, chains1, m, ?_, hr, .failed hnot hact hp, hkey, fun _ ha => (by cases ha),
          fun a ha => ⟨hlive ▸ ha, hent a⟩⟩
        simp only [insert, hp, if_true]
        rw [← hz, store_load]
      · obtain ⟨h1, h2, ⟨chains2, h3⟩, h4, hlast, h5⟩ :=
          insert_repr hr (c := c) (by rw [hkey]) hnot hp
        generalize insert s1 (hash s.key c.item.key) c
          (lastSlot (.entry ((hash s.key c.item.key).toNat % s1.size))
            (chains1 ((hash s.key c.item.key).toNat % s1.size))) = res at h1 h2 h3 h4 hlast h5 ⊢
        obtain ⟨r, s2⟩ := res
        dsimp only at h1 h2 h3 h4 hlast h5
        refine ⟨r, s2, chains2, m ++ [c.item], rfl, h3, ?_, h4.trans hkey, ?_, ?_⟩
        · rw [h1, Option.map_some, h2]
          exact .entered hnot hact
        · intro a ha
          rw [h1] at ha
          cases ha
          exact hlast
        · intro a ha
          obtain ⟨h6, h7⟩ := h5 a (hlive ▸ ha)
          exact ⟨h6, h7.trans (hent a)⟩

end

/-! ## Runs -/

/-- A call with the reply it got: the address stored through `retval`, and the entry there. -/
abbrev Event (δ : Type) := Call δ × Option (Addr × Entry δ)

/-- The calls in order, each on the table the previous one left. -/
def run (hash : List UInt8 → List UInt8 → UInt64) (s : St δ) :
    List (Call δ) → Option (List (Event δ) × St δ)
  | [] => some ([], s)
  | c :: cs =>
    (hsearchR hash s c).bind fun (r, s') =>
      (run hash s' cs).map fun (h, s'') => ((c, r.map fun a => (a, (s'.heap a).e)) :: h, s'')

/-- The first `ENTER` of `key` that returned success. -/
def firstEnter (h : List (Event δ)) (key : List UInt8) : Option (Entry δ) :=
  (h.find? fun ev => ev.1.action == .enter && ev.1.item.key == key && ev.2.isSome).map (·.1.item)

/-- The entry a call is answered with after the history `h`: that of the first successful
`ENTER` of its key; an `ENTER` of a new key is answered with its own entry, or fails because
`malloc` does. -/
def ReplyOk (h : List (Event δ)) (c : Call δ) (r : Option (Entry δ)) : Prop :=
  match firstEnter h c.item.key, c.action with
  | some e, _ => r = some e
  | none, .find => r = none
  | none, .enter => r = some c.item ∨ (r = none ∧ ∃ live, c.malloc.pick live = 0)

/-- The association list of the table is the map of the history. -/
def SameMap (h : List (Event δ)) (m : List (Entry δ)) : Prop :=
  ∀ key, firstEnter h key = m.find? (·.key == key)

theorem firstEnter_snoc (h : List (Event δ)) (ev : Event δ) (key : List UInt8) :
    firstEnter (h ++ [ev]) key = (firstEnter h key).or
      (if ev.1.action = .enter ∧ ev.1.item.key = key ∧ ev.2.isSome then some ev.1.item else none) := by
  unfold firstEnter
  rw [List.find?_append]
  cases h.find? fun ev => ev.1.action == .enter && ev.1.item.key == key && ev.2.isSome with
  | some x => rfl
  | none =>
    rw [Option.none_or, Option.map_none, Option.none_or, List.find?_singleton]
    by_cases hc : ev.1.action = .enter ∧ ev.1.item.key = key ∧ ev.2.isSome
    · simp [hc]
    · rw [if_neg hc, if_neg (by simpa [and_assoc] using hc)]
      rfl

theorem find_key {m : List (Entry δ)} {e : Entry δ} (hnd : (m.map Entry.key).Nodup) (he : e ∈ m) :
    m.find? (·.key == e.key) = some e := by
  induction m with
  | nil => cases he
  | cons x m ih =>
    rw [List.map_cons, List.nodup_cons] at hnd
    rw [List.find?_cons]
    rcases List.mem_cons.mp he with rfl | he
    · simp
    · have hne : (x.key == e.key) = false := by
        rw [beq_eq_false_iff_ne]
        intro hx
        exact hnd.1 (hx ▸ List.mem_map_of_mem (f := Entry.key) he)
      rw [hne]
      exact ih hnd.2 he

theorem find_absent {m : List (Entry δ)} {key : List UInt8} (h : key ∉ m.map Entry.key) :
    m.find? (·.key == key) = none := by
  rw [List.find?_eq_none]
  intro x hx hk
  rw [beq_iff_eq] at hk
  exact h (hk ▸ List.mem_map_of_mem (f := Entry.key) hx)

/-- The history grows as the map does. -/
theorem SameMap.snoc {h : List (Event δ)} {m m' : List (Entry δ)} {c : Call δ}
    {r : Option (Addr × Entry δ)} (hm : SameMap h m) (hnd : (m.map Entry.key).Nodup)
    (hr : Reply m c (r.map Prod.snd) m') : SameMap (h ++ [(c, r)]) m' := by
  intro key
  rw [firstEnter_snoc, hm key]
  generalize hre : r.map Prod.snd = r' at hr
  have hsome : r.isSome = r'.isSome := by rw [← hre, Option.isSome_map]
  rw [hsome]
  cases hr with
  | @present e he hk =>
    by_cases hkey : c.item.key = key
    · rw [← hkey, ← hk, find_key hnd he]; rfl
    · simp [hkey]
  | absent _ hact => simp [hact]
  | entered hnot hact =>
    rw [List.find?_append, List.find?_singleton]
    by_cases hkey : c.item.key = key
    · simp [hkey, hact]
    · simp [hkey]
  | failed _ _ _ => simp

theorem replyOk_of_reply {h : List (Event δ)} {m m' : List (Entry δ)} {c : Call δ}
    {r : Option (Entry δ)} (hm : SameMap h m) (hnd : (m.map Entry.key).Nodup)
    (hr : Reply m c r m') : ReplyOk h c r := by
  unfold ReplyOk
  rw [hm c.item.key]
  cases hr with
  | present he hk => rw [← hk, find_key hnd he]
  | absent hnot hact => rw [find_absent hnot, hact]
  | entered hnot hact => rw [find_absent hnot, hact]; exact .inl rfl
  | failed hnot hact hz => rw [find_absent hnot, hact]; exact .inr ⟨rfl, _, hz⟩

/-- Every entry reported in the history is still where it was reported. -/
def Stable (h : List (Event δ)) (s : St δ) : Prop :=
  ∀ c a e, (c, some (a, e)) ∈ h → a ∈ s.live ∧ (s.heap a).e = e

theorem run_refines {hash : List UInt8 → List UInt8 → UInt64} (calls : List (Call δ)) :
    ∀ {s : St δ} {chains : Nat → List Addr} {m : List (Entry δ)} {pre : List (Event δ)},
      Repr hash s chains m → SameMap pre m → Stable pre s →
      ∃ h s', run hash s calls = some (h, s') ∧ h.map Prod.fst = calls ∧
        (∀ l c r t, h = l ++ (c, r) :: t → ReplyOk (pre ++ l) c (r.map Prod.snd)) ∧
        (∃ chains' m', Repr hash s' chains' m' ∧ SameMap (pre ++ h) m') ∧
        Stable (pre ++ h) s' := by
  induction calls with
  | nil =>
    intro s chains m pre hr hm hs
    refine ⟨[], s, rfl, rfl, ?_, ⟨chains, m, hr, by simpa using hm⟩, by simpa using hs⟩
    intro l c r t hl
    simp at hl
  | cons c calls ih =>
    intro s chains m pre hr hm hs
    obtain ⟨r, s1, chains1, m1, he, hr1, hrep, -, hrl, hkeep⟩ := hsearchR_step hr c
    obtain ⟨ev, hev⟩ : ∃ ev, ev = (c, r.map fun a => (a, (s1.heap a).e)) := ⟨_, rfl⟩
    have hsnd : (r.map fun a => (a, (s1.heap a).e)).map Prod.snd = r.map fun a => (s1.heap a).e := by
      rw [Option.map_map]; rfl
    have hm1 : SameMap (pre ++ [ev]) m1 := by
      rw [hev]; exact hm.snoc hr.keys (by rw [hsnd]; exact hrep)
    have hs1 : Stable (pre ++ [ev]) s1 := by
      intro c' a e hmem
      rcases List.mem_append.mp hmem with hmem | hmem
      · obtain ⟨h1, h2⟩ := hs c' a e hmem
        obtain ⟨h3, h4⟩ := hkeep a h1
        exact ⟨h3, h4.trans h2⟩
      · rw [hev, List.mem_singleton, Prod.mk.injEq] at hmem
        obtain ⟨b, hb, hbe⟩ := Option.map_eq_some_iff.mp hmem.2.symm
        cases hbe
        exact ⟨hrl a hb, rfl⟩
    obtain ⟨h, s2, hrun, hcalls, hok, hfin, hst⟩ := ih hr1 hm1 hs1
    refine ⟨ev :: h, s2, ?_, by simp [hcalls, hev], ?_, ?_, ?_⟩
    · rw [run, he, hev]
      simp [hrun]
    · intro l c' r' t hl
      cases l with
      | nil =>
        simp only [List.nil_append, List.cons.injEq] at hl
        rw [hev, Prod.mk.injEq] at hl
        obtain ⟨⟨rfl, rfl⟩, -⟩ := hl
        rw [List.append_nil, hsnd]
        exact replyOk_of_reply hm hr.keys hrep
      | cons x l =>
        simp only [List.cons_append, List.cons.injEq] at hl
        obtain ⟨rfl, hl⟩ := hl
        have := hok l c' r' t hl
        simpa using this
    · simpa using hfin
    · simpa using hst

/-- **`hsearch_r` refines a finite map.** Every run of calls from a fresh table returns, each
call is answered from the map of the successful `ENTER`s before it, and the table holds
exactly that map, at the addresses it has reported. -/
theorem hsearchR_refines {hash : List UInt8 → List UInt8 → UInt64} {count errno : Nat}
    {callocOk : Bool} {rnd : List UInt8} {heap : Addr → Bucket δ} {s₀ : St δ}
    (hcount : 1 ≤ count) (hs : hcreateR count callocOk rnd errno heap = some s₀)
    (calls : List (Call δ)) :
    ∃ h s, run hash s₀ calls = some (h, s) ∧ h.map Prod.fst = calls ∧
      (∀ l c r t, h = l ++ (c, r) :: t → ReplyOk l c (r.map Prod.snd)) ∧
      (∃ chains m, Repr hash s chains m ∧ SameMap h m) ∧ Stable h s := by
  unfold hcreateR at hs
  split at hs
  · cases hs
    have hr : Repr hash ⟨fun _ => 0, count, 0, rnd, errno, heap, []⟩ (fun _ => []) [] :=
      ⟨hcount, fun _ _ => .nil, by simp, by simp, by simp [buckets], by simp, rfl⟩
    have hm : SameMap ([] : List (Event δ)) [] := fun _ => rfl
    simpa using run_refines calls hr hm fun _ _ _ h => by cases h
  · cases hs

/-- A table of one chain, and an `ENTER` whose `malloc` fails. -/
theorem hsearchR_refines_single :
    ∃ h s, run (fun _ _ => 0) (⟨fun _ => 0, 1, 0, [], 0, fun _ => ⟨0, ⟨[], ()⟩, 0⟩, []⟩ : St Unit)
        [⟨⟨[97], ()⟩, .enter, true, ⟨fun _ => 0, fun _ h => absurd rfl h⟩⟩] = some (h, s) ∧
      ∃ chains m, Repr (fun _ _ => 0) s chains m ∧ SameMap h m := by
  have hs : hcreateR 1 true [] 0 (fun _ => ⟨0, ⟨[], ()⟩, 0⟩) =
      some (⟨fun _ => 0, 1, 0, [], 0, fun _ => ⟨0, ⟨[], ()⟩, 0⟩, []⟩ : St Unit) := rfl
  obtain ⟨h, s, hrun, -, -, hrep, -⟩ := hsearchR_refines (le_refl 1) hs
    [⟨⟨[97], ()⟩, .enter, true, ⟨fun _ => 0, fun _ h => absurd rfl h⟩⟩]
  exact ⟨h, s, hrun, hrep⟩

end Dietlibc.Search
