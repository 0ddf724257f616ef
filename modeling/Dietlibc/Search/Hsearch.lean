import Dietlibc.Base.Links

/-!
# `hcreate_r` and `hsearch_r`

The hash table of `search.h`: an array of heads of singly linked buckets. Buckets live in a
heap indexed by address (`0` is `NULL`), so chains are followed, extended and, when the table
grows, relinked in place, as the source does. A `struct bucket**` is a `Slot`: an element of
the table, or the `next` field of a bucket.

A call carries the answers of the allocator: whether the `calloc` of a larger table succeeds,
and the address `malloc` returns, which is `NULL` or not in use. The loops over a chain run on
fuel, `filled + 1` rounds, which no chain of a table can exhaust.
-/

namespace Dietlibc.Search

abbrev Addr := Nat

/-- `ENTRY`: the string `key` points to, up to its terminator, and the data. -/
structure Entry (δ : Type) where
  key : List UInt8
  data : δ
  deriving DecidableEq

inductive Action where
  | find
  | enter
  deriving DecidableEq

/-- `struct bucket`. -/
structure Bucket (δ : Type) where
  next : Addr
  e : Entry δ
  hv : UInt64

/-- `struct hsearch_data`, `errno`, the memory its buckets are in and the addresses `malloc`
has handed out. -/
structure St (δ : Type) where
  table : Nat → Addr
  size : Nat
  filled : Nat
  key : List UInt8
  errno : Nat
  heap : Addr → Bucket δ
  live : List Addr

/-- A `malloc` that returns `NULL` or an address not in use. -/
structure Malloc where
  pick : List Addr → Addr
  fresh : ∀ live, pick live ≠ 0 → pick live ∉ live

/-- A call of `hsearch_r` and the answers it gets from the allocator. -/
structure Call (δ : Type) where
  item : Entry δ
  action : Action
  callocOk : Bool
  malloc : Malloc

def ESRCH : Nat := 3

def primes : List Nat :=
  [67, 127, 257, 521, 1031, 2053, 4099, 8191, 16381, 32771, 65537,
    131071, 262147, 524287, 1048583, 2097143]

/-- A `struct bucket**`. -/
inductive Slot where
  | entry (i : Nat)
  | link (a : Addr)

variable {δ : Type}

/-- `*b`. -/
def load (s : St δ) : Slot → Addr
  | .entry i => s.table i
  | .link a => (s.heap a).next

/-- `*b=p`. -/
def store (s : St δ) (b : Slot) (p : Addr) : St δ :=
  match b with
  | .entry i => { s with table := Function.update s.table i p }
  | .link a => { s with heap := Function.update s.heap a { s.heap a with next := p } }

/-- `while (*b) { if (found) return; b=(&(*b)->next); }`: the bucket found, or the slot that
ends the chain. -/
def walk (s : St δ) (found : Addr → Bool) : Nat → Slot → Option (Addr ⊕ Slot)
  | 0, _ => none
  | fuel + 1, b =>
    if load s b = 0 then some (.inr b)
    else if found (load s b) then some (.inl (load s b))
    else walk s found fuel (.link (load s b))

/-- `while (B)`: the buckets from `B` pushed onto the chains of the new table `n` of size
`i`. -/
def moveChain (i : Nat) : Nat → (Addr → Bucket δ) × (Nat → Addr) → Addr →
    Option ((Addr → Bucket δ) × (Nat → Addr))
  | 0, _, _ => none
  | fuel + 1, (heap, n), B =>
    if B = 0 then some (heap, n)
    else
      let m := (heap B).hv.toNat % i
      moveChain i fuel
        (Function.update heap B { heap B with next := n m }, Function.update n m B) (heap B).next

/-- The table rebuilt with `i` chains. -/
def rehash (s : St δ) (i : Nat) : Option (St δ) :=
  ((List.range s.size).foldlM (fun p j => moveChain i (s.filled + 1) p (s.table j))
    (s.heap, fun _ => 0)).map fun p => { s with heap := p.1, table := p.2, size := i }

/-- The attempt to resize, and the slot for the new bucket afterwards. If `calloc` fails the
table stays as it is. -/
def grow (s : St δ) (hv : UInt64) (callocOk : Bool) (b : Slot) : Option (St δ × Slot) :=
  if s.size < 2097143 ∧ s.size < s.filled + 1 then
    (primes.find? (s.size < ·)).bind fun i =>
      if callocOk then
        (rehash s i).bind fun s =>
          (walk s (fun _ => false) (s.filled + 1) (.entry (hv.toNat % s.size))).bind fun
            | .inl _ => none
            | .inr b => some (s, b)
      else some (s, b)
  else some (s, b)

/-- `*b=malloc(sizeof(struct bucket))` and the new bucket's fields. -/
def insert (s : St δ) (hv : UInt64) (c : Call δ) (b : Slot) : Option Addr × St δ :=
  let p := c.malloc.pick s.live
  let s := store s b p
  if p = 0 then (none, s)
  else (some p, { s with
    filled := s.filled + 1
    heap := Function.update s.heap p ⟨0, c.item, hv⟩
    live := p :: s.live })

/-- The test of the search loop. -/
def isFound (s : St δ) (hv : UInt64) (key : List UInt8) (p : Addr) : Bool :=
  (s.heap p).hv == hv && (s.heap p).e.key == key

/-- `hsearch_r`, with `siphash24` as a parameter: the entry returned through `retval`, or
`none` for failure. -/
def hsearchR (siphash24 : List UInt8 → List UInt8 → UInt64) (s : St δ) (c : Call δ) :
    Option (Option Addr × St δ) :=
  let hv := siphash24 s.key c.item.key
  (walk s (isFound s hv c.item.key) (s.filled + 1) (.entry (hv.toNat % s.size))).bind fun
    | .inl p => some (some p, s)
    | .inr b =>
      match c.action with
      | .find => some (none, { s with errno := ESRCH })
      | .enter => (grow s hv c.callocOk b).map fun (s, b) => insert s hv c b

/-- `hcreate_r`: an empty table, unless `calloc` fails. `rnd` is the key drawn. -/
def hcreateR (count : Nat) (callocOk : Bool) (rnd : List UInt8) (errno : Nat)
    (heap : Addr → Bucket δ) : Option (St δ) :=
  if callocOk then
    some { table := fun _ => 0, size := count, filled := 0, key := rnd, errno, heap, live := [] }
  else none

end Dietlibc.Search
