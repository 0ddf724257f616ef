import Dietlibc.Base.CInt
import Dietlibc.Base.Cells
import Dietlibc.Base.Links
import Dietlibc.Base.Machine
import Dietlibc.Base.Scan
import Dietlibc.Strings.ByteSearch

/-!
# `_dlsym_elfhash` and `_dlsym_gnuhash`

The tables of a handle are the lists of their words, bytes and symbols; a read outside of them and a
division by zero are faults. The symbols that are hashed are a set of indices. A name that is defined
is the name of a hashed symbol with a value and a section.
-/

namespace Dietlibc.Loader

open Machine Scan

/-- `Elf_Sym` -/
structure Sym where
  stName : UInt32
  stValue : Nat
  stShndx : UInt16
  deriving DecidableEq

/-- What `struct _dl_handle` has for the search of symbols. -/
structure Tables where
  memBase : Nat
  hashTab : List UInt32
  gnuHashTab : List UInt32
  dynStrTab : List UInt8
  dynSymTab : List Sym
  deriving DecidableEq

def elfHash (name : List UInt8) : UInt32 :=
  name.foldl (fun h c =>
    let h := (h <<< 4) + c.toUInt32
    let g := h &&& 0xf0000000
    (if g ≠ 0 then h ^^^ (g >>> 24) else h) ^^^ g) 0

def gnuHash (name : List UInt8) : UInt32 := name.foldl (fun h c => (h <<< 5) + h + c.toUInt32) 5381

/-- `_dl_lib_strcmp`: the byte of `s` goes through a plain `char`, the one of `t` does not. -/
def dlLibStrcmp (signed : Bool) : List UInt8 → List UInt8 → Option Int
  | a :: s, b :: t =>
    let x := Strings.charVal signed a
    if x ≠ b.toNat ∨ x = 0 then some (x - b.toNat) else dlLibStrcmp signed s t
  | _, _ => none

namespace Tables

/-- `dh->dyn_sym_tab[i]` -/
def sym (d : Tables) (i : UInt32) : Option Sym := d.dynSymTab[i.toNat]?

/-- `name+ptr` compared with the symbol. -/
def strcmpAt (d : Tables) (signed : Bool) (ptr : Int) (x : List UInt8) : Option Int :=
  if ptr < 0 then none else dlLibStrcmp signed (d.dynStrTab.drop ptr.toNat) (x ++ [0])

/-- `dh->mem_base+st_value` -/
def address (d : Tables) (s : Sym) : Nat := d.memBase + s.stValue

/-- `HASH_CHAIN(dh->hash_tab)[ind]` -/
def chainWord (d : Tables) (nb ind : UInt32) : Option UInt32 := d.hashTab[2 + nb.toNat + ind.toNat]?

/-- `HASH_BUCKET(dh->hash_tab)[b]` -/
def bucketWord (d : Tables) (b : UInt32) : Option UInt32 := d.hashTab[2 + b.toNat]?

/-- `GNU_HASH_BUCKET(dh->gnu_hash_tab,b)` -/
def gnuBucketWord (d : Tables) (b : UInt32) : Option UInt32 := d.gnuHashTab[b.toNat + 1]?

/-- What `GNU_HASH_CHAIN(dh->gnu_hash_tab,ind)` points to: where the hashes start, `chain[0]` and
`chain[1]`. -/
def gnuRecord (d : Tables) (ind : UInt32) : Option (Nat × UInt32 × UInt32) := do
  let nb ← d.gnuHashTab[0]?
  let chain := (1 + nb + ind).toNat
  let idx ← d.gnuHashTab[chain]?
  let nr ← d.gnuHashTab[chain + 1]?
  some (chain + 2, idx, nr)

end Tables

/-! ## The two searches -/

/-- Where `_dlsym_elfhash` is: at its start, or at a symbol of the chain. -/
inductive ElfState where
  | enter
  | walk (nb ind : UInt32)

/-- What the comparison of a symbol of the chain leads to. -/
def elfTurn (d : Tables) (nb ind : UInt32) (s : Sym) (c : Int) : Next ElfState Nat Unit :=
  if c = 0 ∧ s.stValue ≠ 0 ∧ s.stShndx ≠ 0 then .stop (d.address s)
  else
    match d.chainWord nb ind with
    | none => .fault ()
    | some ind => .again (.walk nb ind)

/-- What a comparison leads to, if it could be made. -/
def elfCompared (d : Tables) (nb ind : UInt32) (s : Sym) : Option Int → Next ElfState Nat Unit
  | none => .fault ()
  | some c => elfTurn d nb ind s c

/-- `_dlsym_elfhash`, whose `ptr` is an `int`. -/
def elfStep (signed : Bool) (d : Tables) (x : List UInt8) : ElfState → Next ElfState Nat Unit
  | .enter =>
    match d.hashTab[0]? with
    | none => .fault ()
    | some nb =>
      if nb = 0 then .fault ()
      else
        match d.bucketWord (elfHash x % nb) with
        | none => .fault ()
        | some ind => .again (.walk nb ind)
  | .walk nb ind =>
    if ind = 0 then .stop 0
    else
      match d.sym ind with
      | none => .fault ()
      | some s => elfCompared d nb ind s (d.strcmpAt signed (CInt.conv 32 s.stName.toNat) x)

/-- One turn of the loop of `_dlsym_gnuhash`: a hash that is not the right one, or a symbol that is not,
passes on. The section is the one of the symbol `ind`. -/
def gnuTurn (signed : Bool) (d : Tables) (x : List UInt8) (ind : UInt32) (chain : Nat) (idx : UInt32)
    (i : Nat) : Option (Option Nat) := do
  let w ← d.gnuHashTab[chain + i]?
  if w = gnuHash x then
    let s ← d.sym (idx + UInt32.ofNat i)
    let c ← d.strcmpAt signed s.stName.toNat x
    if c = 0 ∧ s.stValue ≠ 0 then
      let t ← d.sym ind
      some (if t.stShndx ≠ 0 then some (d.address s) else none)
    else some none
  else some none

/-- The search of the record that a bucket leads to. -/
def gnuSearch (signed : Bool) (d : Tables) (x : List UInt8) (ind : UInt32) : Option Nat :=
  if ind = 0xffffffff then some 0
  else do
    let (chain, idx, nr) ← d.gnuRecord ind
    (scan (gnuTurn signed d x ind chain idx) nr.toNat 0).map fun r => r.getD 0

/-- `_dlsym_gnuhash`, which takes the number of buckets from the other table. -/
def dlsymGnuhash (signed : Bool) (d : Tables) (x : List UInt8) : Option Nat := do
  let nb ← d.hashTab[0]?
  let bhash ← if nb = 0 then none else some (gnuHash x % nb)
  let ind ← d.gnuBucketWord bhash
  gnuSearch signed d x ind

/-! ## Handles whose tables index the same symbols -/

/-- The name of a symbol. -/
def Tables.nameOf (d : Tables) (s : Sym) : List UInt8 := Cells.cstring d.dynStrTab s.stName.toNat

/-- The symbol at `i` has the name `x`. -/
def Named (d : Tables) (i : UInt32) (x : List UInt8) : Prop := ∃ s, d.sym i = some s ∧ d.nameOf s = x

/-- The chain of a bucket of the table at `hash_tab`. -/
def ElfBucket (d : Tables) (nb b : UInt32) (l : List UInt32) : Prop :=
  ∃ ind, d.bucketWord b = some ind ∧ Links (fun i => (d.chainWord nb i).getD 0) 0 ind l ∧
    ∀ i ∈ l, ∃ w, d.chainWord nb i = some w

/-- The symbols of a bucket of the table at `gnu_hash_tab`. -/
def GnuBucket (d : Tables) (b : UInt32) (l : List UInt32) : Prop :=
  ∃ ind, d.gnuBucketWord b = some ind ∧
    ((ind = 0xffffffff ∧ l = []) ∨ (ind ≠ 0xffffffff ∧ ∃ chain idx nr,
      d.gnuRecord ind = some (chain, idx, nr) ∧
        l = (List.range nr.toNat).map (fun k => idx + UInt32.ofNat k) ∧
        ∀ k < nr.toNat, ∃ x, Named d (idx + UInt32.ofNat k) x ∧
          d.gnuHashTab[chain + k]? = some (gnuHash x)))

/-- Both tables have the symbols of `H`, each in the bucket of its hash. -/
structure Indexed (d : Tables) (H : Set UInt32) : Prop where
  terminated : ∀ i s, d.sym i = some s → 0 ∈ d.dynStrTab.drop s.stName.toNat
  symbols : ∀ i ∈ H, ∃ s, d.sym i = some s
  unique : ∀ i ∈ H, ∀ j ∈ H, ∀ x, Named d i x → Named d j x → i = j
  elf : ∃ nb, d.hashTab[0]? = some nb ∧ nb ≠ 0 ∧ ∀ b < nb, ∃ l, ElfBucket d nb b l ∧
    ∀ i, i ∈ l ↔ i ∈ H ∧ ∃ x, Named d i x ∧ elfHash x % nb = b
  gnu : ∃ nb, d.gnuHashTab[0]? = some nb ∧ nb ≠ 0 ∧ ∀ b < nb, ∃ l, GnuBucket d b l ∧
    ∀ i, i ∈ l ↔ i ∈ H ∧ ∃ x, Named d i x ∧ gnuHash x % nb = b

/-- A symbol that has the name, a value and a section. -/
def Defines (d : Tables) (x : List UInt8) (s : Sym) : Prop :=
  d.nameOf s = x ∧ s.stValue ≠ 0 ∧ s.stShndx ≠ 0

/-- The defined symbol of the name. -/
def DefinedAs (d : Tables) (H : Set UInt32) (x : List UInt8) (s : Sym) : Prop :=
  ∃ i ∈ H, d.sym i = some s ∧ Defines d x s

/-- The address of the defined symbol of the name, or zero. -/
def IsAddress (d : Tables) (H : Set UInt32) (x : List UInt8) (a : Nat) : Prop :=
  (∃ s, DefinedAs d H x s ∧ a = d.address s) ∨ (¬(∃ s, DefinedAs d H x s) ∧ a = 0)

/-- Both searches return the address of the defined symbol of the name, or zero. -/
def LookupRight (signed : Bool) (d : Tables) (H : Set UInt32) (x : List UInt8) : Prop :=
  ∃ a, Stops (elfStep signed d x) .enter a ∧ dlsymGnuhash signed d x = some a ∧ IsAddress d H x a

/-! ## When they do -/

/-- No byte of the name is negative as a plain `char`. -/
def Plain (signed : Bool) (x : List UInt8) : Prop := signed = true → ∀ b ∈ x, b.toNat < 128

/-- The names along the chain start below 2^31, up to the symbol that defines `x`. -/
def Low (d : Tables) (x : List UInt8) : List UInt32 → Prop
  | [] => True
  | i :: l => ∃ s, d.sym i = some s ∧ s.stName.toNat < 2 ^ 31 ∧ (¬Defines d x s → Low d x l)

/-- So do those of the bucket of `x`. -/
def ElfFits (d : Tables) (x : List UInt8) : Prop :=
  ∃ nb l, d.hashTab[0]? = some nb ∧ ElfBucket d nb (elfHash x % nb) l ∧ Low d x l

/-- An entry of a record with the hash of `x`, for a symbol that has this name and a value. -/
def Hit (signed : Bool) (d : Tables) (x : List UInt8) (chain : Nat) (idx : UInt32) (k : Nat) (s : Sym) :
    Prop :=
  d.gnuHashTab[chain + k]? = some (gnuHash x) ∧ d.sym (idx + UInt32.ofNat k) = some s ∧
    d.nameOf s = x ∧ Plain signed x ∧ s.stValue ≠ 0

/-- An entry that can be read, and that is a hit only if the symbol `ind` has no section. -/
def Skipped (signed : Bool) (d : Tables) (x : List UInt8) (ind : UInt32) (chain : Nat) (idx : UInt32)
    (k : Nat) : Prop :=
  (∃ w, d.gnuHashTab[chain + k]? = some w ∧
    (w = gnuHash x → ∃ s, d.sym (idx + UInt32.ofNat k) = some s)) ∧
  ∀ s, Hit signed d x chain idx k s → ∃ t, d.sym ind = some t ∧ t.stShndx = 0

/-- A word that leads to the defined symbol: the offset of a record that has it first, where the symbol
at this offset has a section. For a name that is not defined it is empty, or the offset of a record
whose entries are passed over. -/
def Leads (signed : Bool) (d : Tables) (H : Set UInt32) (x : List UInt8) (ind : UInt32) : Prop :=
  (ind = 0xffffffff ∧ ¬∃ s, DefinedAs d H x s) ∨
    (ind ≠ 0xffffffff ∧ ∃ chain idx nr, d.gnuRecord ind = some (chain, idx, nr) ∧
      ((∃ k < nr.toNat, ∃ s t, Hit signed d x chain idx k s ∧ d.sym ind = some t ∧ t.stShndx ≠ 0 ∧
          (∃ s', DefinedAs d H x s' ∧ s'.stValue = s.stValue) ∧
          ∀ j < k, Skipped signed d x ind chain idx j) ∨
        (¬(∃ s, DefinedAs d H x s) ∧ ∀ k < nr.toNat, Skipped signed d x ind chain idx k)))

/-- So does the word that is read for the bucket, with the number of buckets of the other table. -/
def GnuFits (signed : Bool) (d : Tables) (H : Set UInt32) (x : List UInt8) : Prop :=
  ∃ nb ind, d.hashTab[0]? = some nb ∧ d.gnuBucketWord (gnuHash x % nb) = some ind ∧
    Leads signed d H x ind

/-! ## The comparison of names -/

section

variable {signed : Bool} {d : Tables} {H : Set UInt32} {x : List UInt8} {s : Sym} {nb ind idx : UInt32}
  {l : List UInt32} {chain k a r : Nat}

theorem charVal_eq_byte (signed : Bool) (a b : UInt8) :
    Strings.charVal signed a = b.toNat ↔ a = b ∧ (signed = true → b.toNat < 128) := by
  have ha := a.toNat_lt
  have hb := b.toNat_lt
  unfold Strings.charVal
  constructor
  · intro h
    split at h
    · omega
    · rename_i hn
      have hab : a = b := UInt8.toNat_inj.mp (by omega)
      refine ⟨hab, fun hs => ?_⟩
      by_contra hlt
      exact hn ⟨hs, by rw [hab]; omega⟩
  · rintro ⟨rfl, h⟩
    refine if_neg fun hn => ?_
    have := h hn.1
    omega

theorem plain_cons {b : UInt8} :
    Plain signed (b :: x) ↔ (signed = true → b.toNat < 128) ∧ Plain signed x := by
  simp only [Plain, List.forall_mem_cons, ← forall_and]

/-- The comparison is zero for the same name, if none of its bytes is negative. -/
theorem dlLibStrcmp_eq (hx : 0 ∉ x) {s : List UInt8} (hs : 0 ∈ s) :
    ∃ c, dlLibStrcmp signed s (x ++ [0]) = some c ∧
      (c = 0 ↔ s.takeWhile (· ≠ 0) = x ∧ Plain signed x) := by
  induction x generalizing s with
  | nil =>
    obtain ⟨a, s, rfl⟩ := List.exists_cons_of_ne_nil (List.ne_nil_of_mem hs)
    have h0 := charVal_eq_byte signed a 0
    rw [UInt8.toNat_zero, Int.natCast_zero] at h0
    by_cases ha : a = 0
    · have hc := h0.mpr ⟨ha, fun _ => by omega⟩
      refine ⟨0, ?_, fun _ => ⟨by rw [ha]; rfl, fun _ _ hb => absurd hb List.not_mem_nil⟩, fun _ => rfl⟩
      rw [List.nil_append, dlLibStrcmp, hc]
      rfl
    · have hc : Strings.charVal signed a ≠ 0 := fun h => ha (h0.mp h).1
      refine ⟨Strings.charVal signed a - 0, ?_, fun h => absurd h (by omega), fun h => ?_⟩
      · rw [List.nil_append, dlLibStrcmp]
        exact if_pos (.inl hc)
      · rw [List.takeWhile_cons_of_pos (by simpa using ha)] at h
        exact absurd h.1 (List.cons_ne_nil _ _)
  | cons b x ih =>
    obtain ⟨a, s, rfl⟩ := List.exists_cons_of_ne_nil (List.ne_nil_of_mem hs)
    have hb : b ≠ 0 := fun h => hx (h ▸ List.mem_cons_self)
    by_cases hc : Strings.charVal signed a = b.toNat
    · obtain ⟨rfl, hlow⟩ := (charVal_eq_byte _ _ _).mp hc
      have hs' : 0 ∈ s := (List.mem_cons.mp hs).resolve_left (Ne.symm hb)
      obtain ⟨c, he, hiff⟩ := ih (fun h => hx (List.mem_cons_of_mem _ h)) hs'
      refine ⟨c, ?_, ?_⟩
      · have hne : Strings.charVal signed a ≠ 0 := by
          rw [hc]
          exact_mod_cast fun h => hb (UInt8.toNat_inj.mp h)
        rw [List.cons_append, dlLibStrcmp, if_neg (by rintro (h | h); exacts [h hc, hne h])]
        exact he
      · rw [hiff, List.takeWhile_cons_of_pos (by simpa using hb), List.cons.injEq, plain_cons]
        exact ⟨fun h => ⟨⟨rfl, h.1⟩, hlow, h.2⟩, fun h => ⟨h.1.2, h.2.2⟩⟩
    · refine ⟨Strings.charVal signed a - b.toNat, ?_, fun h => absurd h (by omega), fun h => ?_⟩
      · rw [List.cons_append, dlLibStrcmp]
        exact if_pos (.inl hc)
      · have hab : a = b := by
          by_cases ha : a = 0
          · rw [List.takeWhile_cons_of_neg (by simp [ha])] at h
            exact absurd h.1.symm (List.cons_ne_nil _ _)
          · rw [List.takeWhile_cons_of_pos (by simpa using ha)] at h
            exact (List.cons.inj h.1).1
        exact absurd ((charVal_eq_byte _ _ _).mpr ⟨hab, (plain_cons.mp h.2).1⟩) hc

theorem strcmpAt_eq (signed : Bool) (hx : 0 ∉ x) (hs : 0 ∈ d.dynStrTab.drop s.stName.toNat) :
    ∃ c, d.strcmpAt signed s.stName.toNat x = some c ∧ (c = 0 ↔ d.nameOf s = x ∧ Plain signed x) := by
  unfold Tables.strcmpAt
  rw [if_neg (by omega), Int.toNat_natCast]
  exact dlLibStrcmp_eq hx hs

/-- A name that starts below 2^31 is where it starts. -/
theorem strcmpAt_low (h : s.stName.toNat < 2 ^ 31) :
    d.strcmpAt signed (CInt.conv 32 s.stName.toNat) x = d.strcmpAt signed s.stName.toNat x := by
  rw [CInt.conv_low (by decide) h]

/-- A name that starts behind 2^31 is compared in front of the table. -/
theorem strcmpAt_high (h : 2 ^ 31 ≤ s.stName.toNat) :
    d.strcmpAt signed (CInt.conv 32 s.stName.toNat) x = none := by
  have := s.stName.toNat_lt
  rw [CInt.conv_high (by decide) h this]
  exact if_pos (by omega)

/-! ## The defined symbol -/

theorem address_ne_zero (h : s.stValue ≠ 0) : d.address s ≠ 0 := by
  unfold Tables.address
  omega

theorem DefinedAs.unique (h : Indexed d H) {s' : Sym} (hs : DefinedAs d H x s)
    (hs' : DefinedAs d H x s') : s = s' := by
  obtain ⟨i, hi, hsym, hdef⟩ := hs
  obtain ⟨j, hj, hsym', hdef'⟩ := hs'
  have hij := h.unique i hi j hj x ⟨s, hsym, hdef.1⟩ ⟨s', hsym', hdef'.1⟩
  subst hij
  exact Option.some.inj (hsym.symm.trans hsym')

theorem IsAddress.unique (h : Indexed d H) {a' : Nat} (ha : IsAddress d H x a)
    (ha' : IsAddress d H x a') : a = a' := by
  rcases ha with ⟨s, hs, rfl⟩ | ⟨hn, rfl⟩ <;> rcases ha' with ⟨s', hs', rfl⟩ | ⟨hn', rfl⟩
  · rw [hs.unique h hs']
  · exact absurd ⟨s, hs⟩ hn'
  · exact absurd ⟨s', hs'⟩ hn
  · rfl

/-! ## The search of the table at `hash_tab` -/

/-- What the search of a chain comes to. -/
def ElfRun (signed : Bool) (d : Tables) (x : List UInt8) : List UInt32 → Nat → Prop
  | [], r => r = 0
  | i :: l, r => ∃ s, d.sym i = some s ∧ s.stName.toNat < 2 ^ 31 ∧
    ((Defines d x s ∧ Plain signed x ∧ r = d.address s) ∨
      (¬(Defines d x s ∧ Plain signed x) ∧ ElfRun signed d x l r))

theorem elfStep_compare (hind : ind ≠ 0) (hs : d.sym ind = some s) :
    elfStep signed d x (.walk nb ind) =
      elfCompared d nb ind s (d.strcmpAt signed (CInt.conv 32 s.stName.toNat) x) := by
  rw [elfStep, if_neg hind, hs]

/-- A symbol that stops the search, and one that does not. -/
theorem elfStep_walk (signed : Bool) (nb : UInt32) (h : Indexed d H) (hx : 0 ∉ x) (hind : ind ≠ 0)
    (hs : d.sym ind = some s) (hlow : s.stName.toNat < 2 ^ 31) :
    (Defines d x s ∧ Plain signed x → elfStep signed d x (.walk nb ind) = .stop (d.address s)) ∧
      (¬(Defines d x s ∧ Plain signed x) → ∀ w, d.chainWord nb ind = some w →
        elfStep signed d x (.walk nb ind) = .again (.walk nb w)) := by
  obtain ⟨c, hc, hiff⟩ := strcmpAt_eq signed hx (h.terminated ind s hs)
  have hstep : elfStep signed d x (.walk nb ind) = elfTurn d nb ind s c := by
    rw [elfStep_compare hind hs, strcmpAt_low hlow, hc, elfCompared]
  have hcond : (c = 0 ∧ s.stValue ≠ 0 ∧ s.stShndx ≠ 0) ↔ Defines d x s ∧ Plain signed x := by
    rw [hiff, Defines]
    tauto
  rw [hstep]
  constructor
  · intro hm
    exact if_pos (hcond.mpr hm)
  · intro hm w hw
    unfold elfTurn
    rw [if_neg (mt hcond.mp hm), hw]

theorem stops_walk_iff (h : Indexed d H) (hx : 0 ∉ x)
    (hl : Links (fun i => (d.chainWord nb i).getD 0) 0 ind l) (hH : ∀ i ∈ l, i ∈ H)
    (hw : ∀ i ∈ l, ∃ w, d.chainWord nb i = some w) :
    Stops (elfStep signed d x) (.walk nb ind) r ↔ ElfRun signed d x l r := by
  induction hl with
  | nil => exact stops_stop (by rw [elfStep, if_pos rfl])
  | @cons i l hi _ ih =>
    obtain ⟨s, hs⟩ := h.symbols i (hH i List.mem_cons_self)
    obtain ⟨w, hiw⟩ := hw i List.mem_cons_self
    have ih := ih (fun j hj => hH j (List.mem_cons_of_mem _ hj))
      fun j hj => hw j (List.mem_cons_of_mem _ hj)
    rw [hiw, Option.getD_some] at ih
    by_cases hlow : s.stName.toNat < 2 ^ 31
    · obtain ⟨hstop, hgo⟩ := elfStep_walk signed nb h hx hi hs hlow
      by_cases hm : Defines d x s ∧ Plain signed x
      · rw [stops_stop (hstop hm)]
        constructor
        · rintro rfl
          exact ⟨s, hs, hlow, .inl ⟨hm.1, hm.2, rfl⟩⟩
        · rintro ⟨s', hs', -, ⟨-, -, rfl⟩ | ⟨hn, -⟩⟩ <;> cases hs.symm.trans hs'
          · rfl
          · exact absurd hm hn
      · rw [stops_again (hgo hm w hiw), ih]
        constructor
        · intro hr
          exact ⟨s, hs, hlow, .inr ⟨hm, hr⟩⟩
        · rintro ⟨s', hs', -, ⟨hd, hp, -⟩ | ⟨-, hr⟩⟩ <;> cases hs.symm.trans hs'
          · exact absurd ⟨hd, hp⟩ hm
          · exact hr
    · have hfault : elfStep signed d x (.walk nb i) = .fault () := by
        rw [elfStep_compare hi hs, strcmpAt_high (Nat.le_of_not_lt hlow), elfCompared]
      refine iff_of_false (not_stops_fault hfault) ?_
      rintro ⟨s', hs', hlow', -⟩
      cases hs.symm.trans hs'
      exact hlow hlow'

/-- The search comes to an end if the names start low enough. -/
theorem exists_elfRun (hl : ∀ i ∈ l, i ∈ H) (hp : (∃ s, DefinedAs d H x s) → Plain signed x)
    (hlow : Low d x l) : ∃ r, ElfRun signed d x l r := by
  induction l with
  | nil => exact ⟨0, rfl⟩
  | cons i l ih =>
    obtain ⟨s, hs, hlt, hrest⟩ := hlow
    by_cases hd : Defines d x s
    · exact ⟨_, s, hs, hlt, .inl ⟨hd, hp ⟨s, i, hl i List.mem_cons_self, hs, hd⟩, rfl⟩⟩
    · obtain ⟨r, hr⟩ := ih (fun j hj => hl j (List.mem_cons_of_mem _ hj)) (hrest hd)
      exact ⟨r, s, hs, hlt, .inr ⟨fun h => hd h.1, hr⟩⟩

theorem ElfRun.low (hr : ElfRun signed d x l r) : Low d x l := by
  induction l with
  | nil => trivial
  | cons i l ih =>
    obtain ⟨s, hs, hlt, ⟨hd, -⟩ | ⟨-, hr⟩⟩ := hr
    · exact ⟨s, hs, hlt, fun hn => absurd hd hn⟩
    · exact ⟨s, hs, hlt, fun _ => ih hr⟩

/-- The search ends with the symbol that defines the name, or passed every symbol. -/
theorem ElfRun.result (hr : ElfRun signed d x l r) :
    (∃ i ∈ l, ∃ s, d.sym i = some s ∧ Defines d x s ∧ Plain signed x ∧ r = d.address s) ∨
      ((∀ i ∈ l, ∀ s, d.sym i = some s → ¬(Defines d x s ∧ Plain signed x)) ∧ r = 0) := by
  induction l with
  | nil => exact .inr ⟨fun i hi => absurd hi List.not_mem_nil, hr⟩
  | cons i l ih =>
    obtain ⟨s, hs, -, ⟨hd, hp, he⟩ | ⟨hn, hr⟩⟩ := hr
    · exact .inl ⟨i, List.mem_cons_self, s, hs, hd, hp, he⟩
    · rcases ih hr with ⟨j, hj, hrest⟩ | ⟨hall, h0⟩
      · exact .inl ⟨j, List.mem_cons_of_mem _ hj, hrest⟩
      · refine .inr ⟨fun j hj s' hs' => ?_, h0⟩
        rcases List.mem_cons.mp hj with rfl | hj
        · cases hs.symm.trans hs'
          exact hn
        · exact hall j hj s' hs'

/-- The first search is right exactly if the name is plain, where it is defined, and the names on the
chain start low enough. -/
theorem elf_right_iff (h : Indexed d H) (hx : 0 ∉ x) :
    (∃ a, Stops (elfStep signed d x) .enter a ∧ IsAddress d H x a) ↔
      ((∃ s, DefinedAs d H x s) → Plain signed x) ∧ ElfFits d x := by
  obtain ⟨nb, hnb, hnb0, hbuckets⟩ := h.elf
  have hlt : elfHash x % nb < nb := UInt32.mod_lt _ (UInt32.pos_iff_ne_zero.mpr hnb0)
  obtain ⟨l, hbucket, hmem⟩ := hbuckets _ hlt
  obtain ⟨ind, hind, hlinks, hwords⟩ := id hbucket
  have hstops (a : Nat) : Stops (elfStep signed d x) .enter a ↔ ElfRun signed d x l a := by
    have henter : elfStep signed d x .enter = .again (.walk nb ind) := by
      simp only [elfStep, hnb, if_neg hnb0, hind]
    rw [stops_again henter]
    exact stops_walk_iff h hx hlinks (fun i hi => ((hmem i).mp hi).1) hwords
  have hfits : ElfFits d x ↔ Low d x l := by
    constructor
    · rintro ⟨nb', l', hnb', ⟨ind', hind', hlinks', -⟩, hlow⟩
      cases hnb.symm.trans hnb'
      cases hind.symm.trans hind'
      rwa [hlinks.unique hlinks']
    · exact fun hlow => ⟨nb, l, hnb, hbucket, hlow⟩
  rw [hfits]
  constructor
  · rintro ⟨a, ha, haddr⟩
    have hr := (hstops a).mp ha
    refine ⟨fun ⟨s, hs⟩ => ?_, hr.low⟩
    rcases hr.result with ⟨-, -, -, -, -, hp, -⟩ | ⟨-, rfl⟩
    · exact hp
    · rcases haddr with ⟨s', ⟨-, -, -, hd⟩, h0⟩ | ⟨hn, -⟩
      · exact absurd h0.symm (address_ne_zero hd.2.1)
      · exact absurd ⟨s, hs⟩ hn
  · rintro ⟨hp, hlow⟩
    obtain ⟨r, hr⟩ := exists_elfRun (fun i hi => ((hmem i).mp hi).1) hp hlow
    refine ⟨r, (hstops r).mpr hr, ?_⟩
    rcases hr.result with ⟨i, hi, s, hs, hd, -, rfl⟩ | ⟨hall, rfl⟩
    · exact .inl ⟨s, ⟨i, ((hmem i).mp hi).1, hs, hd⟩, rfl⟩
    · refine .inr ⟨fun ⟨s, hs⟩ => ?_, rfl⟩
      obtain ⟨i, hi, hsym, hd⟩ := id hs
      exact hall i ((hmem i).mpr ⟨hi, x, ⟨s, hsym, hd.1⟩, rfl⟩) s hsym ⟨hd, hp ⟨s, hs⟩⟩

/-! ## The search of the table at `gnu_hash_tab` -/

theorem gnuTurn_other {w : UInt32} (hw : d.gnuHashTab[chain + k]? = some w) (hne : w ≠ gnuHash x) :
    gnuTurn signed d x ind chain idx k = some none := by
  rw [gnuTurn, hw]
  exact if_neg hne

/-- A turn that meets the hash. -/
theorem gnuTurn_hash (signed : Bool) (ind : UInt32) (h : Indexed d H) (hx : 0 ∉ x)
    (hw : d.gnuHashTab[chain + k]? = some (gnuHash x)) (hs : d.sym (idx + UInt32.ofNat k) = some s) :
    (Hit signed d x chain idx k s → gnuTurn signed d x ind chain idx k =
      (d.sym ind).map fun t => if t.stShndx ≠ 0 then some (d.address s) else none) ∧
      (¬Hit signed d x chain idx k s → gnuTurn signed d x ind chain idx k = some none) := by
  obtain ⟨c, hc, hiff⟩ := strcmpAt_eq signed hx (h.terminated _ s hs)
  have hcond : (c = 0 ∧ s.stValue ≠ 0) ↔ Hit signed d x chain idx k s := by
    rw [hiff, Hit]
    tauto
  have hturn : gnuTurn signed d x ind chain idx k = if c = 0 ∧ s.stValue ≠ 0 then
      (d.sym ind).bind fun t => some (if t.stShndx ≠ 0 then some (d.address s) else none)
      else some none := by
    simp only [gnuTurn, hw, hs, hc, Option.bind_eq_bind, Option.bind_some, if_true]
  rw [hturn]
  constructor
  · intro hh
    rw [if_pos (hcond.mpr hh), Option.map_eq_bind]
    rfl
  · intro hh
    exact if_neg (mt hcond.mp hh)

theorem gnuTurn_found_iff (h : Indexed d H) (hx : 0 ∉ x) :
    gnuTurn signed d x ind chain idx k = some (some a) ↔
      ∃ s t, Hit signed d x chain idx k s ∧ d.sym ind = some t ∧ t.stShndx ≠ 0 ∧ a = d.address s := by
  constructor
  · intro ht
    rcases hw : d.gnuHashTab[chain + k]? with _ | w
    · rw [gnuTurn, hw] at ht
      cases ht
    by_cases hne : w = gnuHash x
    · subst hne
      rcases hs : d.sym (idx + UInt32.ofNat k) with _ | s
      · simp only [gnuTurn, hw, hs, Option.bind_eq_bind, Option.bind_some, if_true] at ht
        cases ht
      obtain ⟨hhit, hno⟩ := gnuTurn_hash signed ind h hx hw hs
      by_cases hh : Hit signed d x chain idx k s
      · rw [hhit hh] at ht
        obtain ⟨t, hsym, hif⟩ := Option.map_eq_some_iff.mp ht
        by_cases hsec : t.stShndx ≠ 0
        · rw [if_pos hsec] at hif
          exact ⟨s, t, hh, hsym, hsec, (Option.some.inj hif).symm⟩
        · rw [if_neg hsec] at hif
          cases hif
      · rw [hno hh] at ht
        cases ht
    · rw [gnuTurn_other hw hne] at ht
      cases ht
  · rintro ⟨s, t, hh, hsym, hsec, rfl⟩
    rw [(gnuTurn_hash _ _ h hx hh.1 hh.2.1).1 hh, hsym, Option.map_some, if_pos hsec]

theorem gnuTurn_passed_iff (h : Indexed d H) (hx : 0 ∉ x) :
    gnuTurn signed d x ind chain idx k = some none ↔ Skipped signed d x ind chain idx k := by
  rcases hw : d.gnuHashTab[chain + k]? with _ | w
  · refine iff_of_false ?_ fun hs => ?_
    · rw [gnuTurn, hw]
      exact fun h => nomatch h
    · obtain ⟨⟨w, hw', -⟩, -⟩ := hs
      cases hw.symm.trans hw'
  by_cases hne : w = gnuHash x
  · subst hne
    rcases hs : d.sym (idx + UInt32.ofNat k) with _ | s
    · refine iff_of_false ?_ fun hsk => ?_
      · simp only [gnuTurn, hw, hs, Option.bind_eq_bind, Option.bind_some, if_true]
        exact fun h => nomatch h
      · obtain ⟨⟨w, hw', himp⟩, -⟩ := hsk
        cases hw.symm.trans hw'
        obtain ⟨s, hs'⟩ := himp rfl
        cases hs.symm.trans hs'
    obtain ⟨hhit, hno⟩ := gnuTurn_hash signed ind h hx hw hs
    have hreads : ∃ w, d.gnuHashTab[chain + k]? = some w ∧
        (w = gnuHash x → ∃ s, d.sym (idx + UInt32.ofNat k) = some s) := ⟨_, hw, fun _ => ⟨s, hs⟩⟩
    by_cases hh : Hit signed d x chain idx k s
    · rw [hhit hh, Option.map_eq_some_iff]
      constructor
      · rintro ⟨t, hsym, hif⟩
        refine ⟨hreads, fun s' hs' => ⟨t, hsym, ?_⟩⟩
        by_contra hsec
        rw [if_pos hsec] at hif
        cases hif
      · rintro ⟨-, hall⟩
        obtain ⟨t, hsym, hsec⟩ := hall s hh
        exact ⟨t, hsym, if_neg (not_not_intro hsec)⟩
    · rw [hno hh]
      exact iff_of_true rfl ⟨hreads, fun s' hs' =>
        absurd (Option.some.inj (hs'.2.1.symm.trans hs) ▸ hs') hh⟩
  · rw [gnuTurn_other hw hne]
    refine iff_of_true rfl ⟨⟨w, hw, fun he => absurd he hne⟩, fun s hs => ?_⟩
    exact absurd (Option.some.inj (hw.symm.trans hs.1)) hne

theorem isAddress_zero_iff : IsAddress d H x 0 ↔ ¬∃ s, DefinedAs d H x s := by
  constructor
  · rintro (⟨s, ⟨i, -, -, hd⟩, h0⟩ | ⟨hn, -⟩)
    · exact absurd h0.symm (address_ne_zero hd.2.1)
    · exact hn
  · exact fun hn => .inr ⟨hn, rfl⟩

theorem isAddress_address_iff (hv : s.stValue ≠ 0) :
    IsAddress d H x (d.address s) ↔ ∃ s', DefinedAs d H x s' ∧ s'.stValue = s.stValue := by
  constructor
  · rintro (⟨s', hs', he⟩ | ⟨-, h0⟩)
    · exact ⟨s', hs', (Nat.add_left_cancel he).symm⟩
    · exact absurd h0 (address_ne_zero hv)
  · rintro ⟨s', hs', he⟩
    exact .inl ⟨s', hs', by rw [Tables.address, Tables.address, he]⟩

/-- The search of a record ends with its first hit, or passed every entry. -/
theorem scan_right_iff (h : Indexed d H) (hx : 0 ∉ x) {nr : Nat} :
    (∃ a, ((scan (gnuTurn signed d x ind chain idx) nr 0).map fun r => r.getD 0) = some a ∧
      IsAddress d H x a) ↔
      ((∃ k < nr, ∃ s t, Hit signed d x chain idx k s ∧ d.sym ind = some t ∧ t.stShndx ≠ 0 ∧
          (∃ s', DefinedAs d H x s' ∧ s'.stValue = s.stValue) ∧
          ∀ j < k, Skipped signed d x ind chain idx j) ∨
        (¬(∃ s, DefinedAs d H x s) ∧ ∀ k < nr, Skipped signed d x ind chain idx k)) := by
  constructor
  · rintro ⟨a, ha, haddr⟩
    obtain ⟨r, hr, rfl⟩ := Option.map_eq_some_iff.mp ha
    rcases r with _ | b
    · refine .inr ⟨isAddress_zero_iff.mp haddr, fun k hk => ?_⟩
      exact (gnuTurn_passed_iff h hx).mp (scan_end_iff.mp hr k (Nat.zero_le k) (by omega))
    · obtain ⟨k, -, hk, hfound, hbefore⟩ := scan_found_iff.mp hr
      obtain ⟨s, t, hh, hsym, hsec, rfl⟩ := (gnuTurn_found_iff h hx).mp hfound
      rw [Option.getD_some, isAddress_address_iff hh.2.2.2.2] at haddr
      exact .inl ⟨k, by omega, s, t, hh, hsym, hsec, haddr,
        fun j hj => (gnuTurn_passed_iff h hx).mp (hbefore j (Nat.zero_le j) hj)⟩
  · rintro (⟨k, hk, s, t, hh, hsym, hsec, hdef, hbefore⟩ | ⟨hn, hall⟩)
    · have hfound := scan_found_iff.mpr ⟨k, Nat.zero_le k, (by omega : k < 0 + nr),
        (gnuTurn_found_iff h hx).mpr ⟨s, t, hh, hsym, hsec, rfl⟩,
        fun j _ hj => (gnuTurn_passed_iff h hx).mpr (hbefore j hj)⟩
      exact ⟨d.address s, by rw [hfound]; rfl, (isAddress_address_iff hh.2.2.2.2).mpr hdef⟩
    · have hend := scan_end_iff.mpr fun k (_ : 0 ≤ k) (hk : k < 0 + nr) =>
        (gnuTurn_passed_iff h hx).mpr (hall k (by omega))
      exact ⟨0, by rw [hend]; rfl, isAddress_zero_iff.mpr hn⟩

theorem gnuSearch_right_iff (h : Indexed d H) (hx : 0 ∉ x) :
    (∃ a, gnuSearch signed d x ind = some a ∧ IsAddress d H x a) ↔ Leads signed d H x ind := by
  unfold gnuSearch Leads
  by_cases he : ind = 0xffffffff
  · rw [if_pos he]
    constructor
    · rintro ⟨a, ha, haddr⟩
      cases ha
      exact .inl ⟨he, isAddress_zero_iff.mp haddr⟩
    · rintro (⟨-, hn⟩ | ⟨hne, -⟩)
      · exact ⟨0, rfl, isAddress_zero_iff.mpr hn⟩
      · exact absurd he hne
  · rw [if_neg he]
    rcases hrec : d.gnuRecord ind with _ | ⟨chain, idx, nr⟩
    · refine iff_of_false ?_ ?_
      · rintro ⟨a, ha, -⟩
        cases ha
      · rintro (⟨he', -⟩ | ⟨-, chain, idx, nr, hr, -⟩)
        · exact he he'
        · cases hr
    · refine (scan_right_iff h hx).trans ⟨fun hr => .inr ⟨he, chain, idx, nr, rfl, hr⟩, ?_⟩
      rintro (⟨he', -⟩ | ⟨-, chain', idx', nr', hr, hrest⟩)
      · exact absurd he' he
      · cases hr
        exact hrest

/-- The second search is right exactly if the word it reads for the bucket leads it to the defined
symbol. -/
theorem gnu_right_iff (h : Indexed d H) (hx : 0 ∉ x) :
    (∃ a, dlsymGnuhash signed d x = some a ∧ IsAddress d H x a) ↔ GnuFits signed d H x := by
  obtain ⟨nb, hnb, hnb0, -⟩ := h.elf
  have he : dlsymGnuhash signed d x =
      (d.gnuBucketWord (gnuHash x % nb)).bind (gnuSearch signed d x) := by
    simp only [dlsymGnuhash, hnb, if_neg hnb0, Option.bind_eq_bind, Option.bind_some]
  rw [he]
  constructor
  · rintro ⟨a, ha, haddr⟩
    obtain ⟨ind, hind, hs⟩ := Option.bind_eq_some_iff.mp ha
    exact ⟨nb, ind, hnb, hind, (gnuSearch_right_iff h hx).mp ⟨a, hs, haddr⟩⟩
  · rintro ⟨nb', ind, hnb', hind, hl⟩
    cases hnb.symm.trans hnb'
    obtain ⟨a, hs, haddr⟩ := (gnuSearch_right_iff h hx).mpr hl
    exact ⟨a, Option.bind_eq_some_iff.mpr ⟨ind, hind, hs⟩, haddr⟩

end

/-! ## A library with one symbol -/

/-- The symbol `b`, in a table with one bucket and in one with two. -/
def tablesB : Tables where
  memBase := 0x10000
  hashTab := [1, 2, 1, 0, 0]
  gnuHashTab := [2, 0xffffffff, 0, 1, 1, 177671]
  dynStrTab := [0, 98, 0]
  dynSymTab := [⟨0, 0, 0⟩, ⟨1, 16, 1⟩]

theorem tablesB_sym {i : UInt32} {s : Sym} (h : tablesB.sym i = some s) :
    (i = 0 ∧ s = ⟨0, 0, 0⟩) ∨ (i = 1 ∧ s = ⟨1, 16, 1⟩) := by
  obtain ⟨hi, rfl⟩ := List.getElem?_eq_some_iff.mp h
  have hlt : i.toNat < 2 := hi
  rcases Nat.lt_succ_iff_lt_or_eq.mp hlt with h0 | h1
  · have e : i = 0 := UInt32.toNat_inj.mp (Nat.lt_one_iff.mp h0)
    subst e
    exact .inl ⟨rfl, rfl⟩
  · have e : i = 1 := UInt32.toNat_inj.mp h1
    subst e
    exact .inr ⟨rfl, rfl⟩

theorem tablesB_named {x : List UInt8} : Named tablesB 1 x ↔ x = [98] := by
  constructor
  · rintro ⟨s, hs, rfl⟩
    rcases tablesB_sym hs with ⟨h, -⟩ | ⟨-, rfl⟩
    · exact absurd h (by decide)
    · decide
  · rintro rfl
    exact ⟨⟨1, 16, 1⟩, rfl, by decide⟩

theorem tablesB_bucket {f : List UInt8 → UInt32} {b : UInt32} {l : List UInt32}
    (h : (f [98] = b ∧ l = [1]) ∨ (f [98] ≠ b ∧ l = [])) (i : UInt32) :
    i ∈ l ↔ i ∈ ({1} : Set UInt32) ∧ ∃ x, Named tablesB i x ∧ f x = b := by
  rcases h with ⟨hf, rfl⟩ | ⟨hf, rfl⟩
  · rw [List.mem_singleton]
    constructor
    · rintro rfl
      exact ⟨rfl, [98], tablesB_named.mpr rfl, hf⟩
    · exact fun h => h.1
  · refine iff_of_false List.not_mem_nil ?_
    rintro ⟨rfl, x, hx, hfx⟩
    exact hf (tablesB_named.mp hx ▸ hfx)

theorem tablesB_indexed : Indexed tablesB {1} where
  terminated i s hs := by
    rcases tablesB_sym hs with ⟨-, rfl⟩ | ⟨-, rfl⟩ <;> simp [tablesB]
  symbols := by
    rintro i rfl
    exact ⟨_, rfl⟩
  unique := by
    rintro i rfl j rfl _ _ _
    rfl
  elf := by
    refine ⟨1, rfl, by decide, fun b hb => ⟨[1], ⟨1, ?_, .cons (by decide) .nil, ?_⟩, ?_⟩⟩
    · rw [UInt32.lt_one_iff.mp hb]
      rfl
    · exact fun i hi => ⟨0, by rw [List.mem_singleton.mp hi]; rfl⟩
    · refine tablesB_bucket (.inl ⟨?_, rfl⟩)
      rw [UInt32.lt_one_iff.mp hb]
      decide
  gnu := by
    refine ⟨2, rfl, by decide, fun b hb => ?_⟩
    have hlt : b.toNat < 2 := hb
    rcases Nat.lt_succ_iff_lt_or_eq.mp hlt with h0 | h1
    · have e : b = 0 := UInt32.toNat_inj.mp (Nat.lt_one_iff.mp h0)
      subst e
      exact ⟨[], ⟨0xffffffff, rfl, .inl ⟨rfl, rfl⟩⟩, tablesB_bucket (.inr ⟨by decide, rfl⟩)⟩
    · have e : b = 1 := UInt32.toNat_inj.mp h1
      subst e
      refine ⟨[1], ⟨0, rfl, .inr ⟨by decide, 5, 1, 1, rfl, rfl, fun k hk => ?_⟩⟩,
        tablesB_bucket (.inl ⟨by decide, rfl⟩)⟩
      have hk0 : k = 0 := Nat.lt_one_iff.mp hk
      subst hk0
      exact ⟨[98], tablesB_named.mpr rfl, by decide⟩

end Dietlibc.Loader
