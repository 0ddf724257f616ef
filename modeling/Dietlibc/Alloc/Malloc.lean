import Dietlibc.Base.CInt
import Dietlibc.Base.Mem

/-!
# The allocator

`lib/alloc.c` on a 64-bit machine with pages of 4096 bytes, in the default configuration
(neither `WANT_MALLOC_ZERO` nor `WANT_FREE_OVERWRITE`). A block starts with the 16-byte header
`__alloc_t`: the word `next` at its start and the word `size` after it. A pointer handed out
points behind the header. Small blocks of the eight class sizes `16 << idx` are carved from
pages and kept on the lists `__small_mem[idx]`; larger blocks are mappings of their own.

The kernel is a parameter (`Kernel`). It answers `mmap` and `mremap` as it likes, within its
contract, and may remember its past in `κ`.
-/

namespace Dietlibc.Alloc

/-- `ENOMEM`. -/
def enomem : Nat := 12

/-- A region the kernel may hand out: page-aligned, in the address space, free of the regions
`maps`. -/
structure Free (maps : List Extent) (a len : Nat) : Prop where
  addr_pos : 0 < a
  aligned : 4096 ∣ a
  len_pos : 0 < len
  fits : a + len ≤ 2 ^ 64
  disj : ∀ r ∈ maps, Extent.Disj ⟨a, len⟩ r

/-- `mmap` and `mremap`, told the regions `maps` that are mapped; `none` is `MAP_FAILED`. -/
structure Kernel (κ : Type) where
  mmap : κ → List Extent → Nat → Option Nat × κ
  mremap : κ → List Extent → Extent → Nat → Option Nat × κ
  mmap_free : ∀ k maps len a k', mmap k maps len = (some a, k') → Free maps a len
  mremap_free : ∀ k maps r len a k', mremap k maps r len = (some a, k') →
    Free (maps.erase r) a len

/-- Memory, the heads `__small_mem`, the mapped regions, `errno` and the kernel's own state. -/
structure Heap (κ : Type) where
  mem : Mem
  smallMem : Nat → Nat
  maps : List Extent
  errno : Nat
  kern : κ

/-- `PAGE_ALIGN`; the mask clears the low twelve bits. -/
def pageAlign (s : Nat) : Nat := (s + 4095) % 2 ^ 64 / 4096 * 4096

/-- `while(size) { size>>=1; ++idx; }`. -/
def indexLoop (size idx : Nat) : Nat :=
  if size = 0 then idx else indexLoop (size / 2) (idx + 1)
termination_by size

def getIndex (size : Nat) : Nat := indexLoop (CInt.usub 64 size 1 % 4096 / 16) 0

/-- `16 << idx`. -/
def classSize (idx : Nat) : Nat := 16 * 2 ^ idx

/-- `GET_SIZE`. -/
def getSize (s : Nat) : Nat := classSize (getIndex s)

section

variable {κ : Type} (K : Kernel κ)

/-! ## The kernel's calls -/

/-- `do_mmap`: the new region is filled with zeros. -/
def doMmap (size : Nat) (h : Heap κ) : Option Nat × Heap κ :=
  match K.mmap h.kern h.maps size with
  | (none, k) => (none, { h with kern := k })
  | (some a, k) =>
    (some a, { h with mem := h.mem.fill a size 0, maps := ⟨a, size⟩ :: h.maps, kern := k })

def munmap (r : Extent) (h : Heap κ) : Heap κ := { h with maps := h.maps.erase r }

/-- `mremap(..., MREMAP_MAYMOVE)`: the common part of the two regions keeps its contents, what
is new is filled with zeros. -/
def mremap (r : Extent) (size : Nat) (h : Heap κ) : Option Nat × Heap κ :=
  match K.mremap h.kern h.maps r size with
  | (none, k) => (none, { h with kern := k })
  | (some a, k) =>
    (some a, { h with
      mem := fun i =>
        if a ≤ i ∧ i < a + size then
          if i - a < r.len then h.mem (r.start + (i - a)) else 0
        else h.mem i
      maps := ⟨a, size⟩ :: h.maps.erase r
      kern := k })

/-! ## Small memory -/

/-- `__small_free`. -/
def smallFree (p size : Nat) (h : Heap κ) : Heap κ :=
  let ptr := p - 16
  let idx := getIndex size
  let mem := h.mem.fill ptr size 0
  { h with
    mem := mem.setWord ptr (h.smallMem idx)
    smallMem := Function.update h.smallMem idx ptr }

/-- The loop of `__small_malloc` that chains the blocks of a page, `nr` more to come, and the
terminator behind it. -/
def carve (size : Nat) : Nat → Nat → Mem → Mem
  | 0, ptr, m => m.setWord ptr 0
  | nr + 1, ptr, m =>
    let m := m.setWord ptr (ptr + size)
    carve size nr (m.word ptr) m

/-- The end of `__small_malloc`: get a free block. -/
def takeBlock (idx : Nat) (h : Heap κ) : Nat × Heap κ :=
  let ptr := h.smallMem idx
  (ptr, { h with
    smallMem := Function.update h.smallMem idx (h.mem.word ptr)
    mem := h.mem.setWord ptr 0 })

/-- `__small_malloc`. -/
def smallMalloc (size : Nat) (h : Heap κ) : Option Nat × Heap κ :=
  let idx := getIndex size
  if h.smallMem idx = 0 then
    match doMmap K 4096 h with
    | (none, h) => (none, h)
    | (some ptr, h) =>
      let h := { h with
        smallMem := Function.update h.smallMem idx ptr
        mem := carve size (4096 / size - 1) ptr h.mem }
      let (ptr, h) := takeBlock idx h
      (some ptr, h)
  else
    let (ptr, h) := takeBlock idx h
    (some ptr, h)

/-! ## Public functions -/

/-- `_alloc_libc_free`. -/
def allocLibcFree (ptr : Nat) (h : Heap κ) : Heap κ :=
  if ptr = 0 then h
  else
    let size := h.mem.word (ptr - 16 + 8)
    if size = 0 then h
    else if size ≤ 2048 then smallFree ptr size h
    else munmap ⟨ptr - 16, size⟩ h

/-- The label `err_out`. -/
def errOut (h : Heap κ) : Nat × Heap κ := (0, { h with errno := enomem })

/-- The block of `_alloc_libc_malloc` that gets `need` bytes. -/
def getBlock (size : Nat) (h : Heap κ) : Nat × Option Nat × Heap κ :=
  if size ≤ 2048 then (getSize size, smallMalloc K (getSize size) h)
  else if pageAlign size = 0 then (pageAlign size, none, h)
  else (pageAlign size, doMmap K (pageAlign size) h)

/-- `_alloc_libc_malloc`; `0` is a null pointer. -/
def allocLibcMalloc (size : Nat) (h : Heap κ) : Nat × Heap κ :=
  if size = 0 then errOut h
  else if (size + 16) % 2 ^ 64 < 16 then errOut h
  else
    match getBlock K ((size + 16) % 2 ^ 64) h with
    | (_, none, h) => errOut h
    | (need, some ptr, h) => (ptr + 16, { h with mem := h.mem.setWord (ptr + 8) need })

/-- `__libc_calloc`. -/
def libcCalloc (nmemb size : Nat) (h : Heap κ) : Nat × Heap κ :=
  if 2 ^ 64 ≤ size * nmemb then errOut h else allocLibcMalloc K (size * nmemb) h

/-- `__libc_realloc` of a small block to another size. -/
def reallocSmall (ptr size : Nat) (h : Heap κ) : Nat × Heap κ :=
  let (new, h) := allocLibcMalloc K size h
  if new = 0 then (0, h)
  else
    let n := min (h.mem.word (new - 16 + 8)) (h.mem.word (ptr - 16 + 8))
    let h := if n ≠ 0 then { h with mem := h.mem.copy new ptr (n - 16) } else h
    (new, allocLibcFree ptr h)

/-- `__libc_realloc` of a block with a mapping of its own. -/
def reallocLarge (ptr size : Nat) (h : Heap κ) : Nat × Heap κ :=
  match mremap K ⟨ptr - 16, h.mem.word (ptr - 16 + 8)⟩ (pageAlign size) h with
  | (none, h) => errOut h
  | (some foo, h) => (foo + 16, { h with mem := h.mem.setWord (foo + 8) (pageAlign size) })

/-- `__libc_realloc`. -/
def libcRealloc (ptr size : Nat) (h : Heap κ) : Nat × Heap κ :=
  if ptr = 0 then if size = 0 then (ptr, h) else allocLibcMalloc K size h
  else if size = 0 then (0, allocLibcFree ptr h)
  else
    let need := (size + 16) % 2 ^ 64
    if need < 16 then errOut h
    else
      let need := if need ≤ 2048 then getSize need else pageAlign need
      if h.mem.word (ptr - 16 + 8) = need then (ptr, h)
      else if h.mem.word (ptr - 16 + 8) ≤ 2048 then reallocSmall K ptr size h
      else reallocLarge K ptr need h

end

/-! ## Runs -/

/-- A call, or a store of the program into a block it holds. -/
inductive Op where
  | malloc (size : Nat)
  | calloc (nmemb size : Nat)
  | realloc (ptr size : Nat)
  | free (ptr : Nat)
  | store (ptr off : Nat) (data : List UInt8)

/-- A heap and the program's view of it: `live p` is the size requested for the block at `p`,
`0` when there is none. -/
structure State (κ : Type) where
  heap : Heap κ
  live : Nat → Nat

/-- The program's books after an allocation of `size` bytes answered `p`. -/
def grant (live : Nat → Nat) (p size : Nat) : Nat → Nat :=
  if p = 0 then live else Function.update live p size

def release (live : Nat → Nat) (p : Nat) : Nat → Nat := Function.update live p 0

/-- One call. A `realloc` that answers a null pointer for a size other than `0` has failed and
the old block stays live. -/
def step {κ : Type} (K : Kernel κ) (op : Op) (st : State κ) : State κ :=
  match op with
  | .malloc size =>
    let (p, h) := allocLibcMalloc K size st.heap
    ⟨h, grant st.live p size⟩
  | .calloc nmemb size =>
    let (p, h) := libcCalloc K nmemb size st.heap
    ⟨h, grant st.live p (size * nmemb)⟩
  | .realloc ptr size =>
    let (p, h) := libcRealloc K ptr size st.heap
    ⟨h, if p = 0 ∧ size ≠ 0 then st.live else grant (release st.live ptr) p size⟩
  | .free ptr => ⟨allocLibcFree ptr st.heap, release st.live ptr⟩
  | .store ptr off data => ⟨{ st.heap with mem := st.heap.mem.store (ptr + off) data }, st.live⟩

/-- `size_t` arguments; `free` and `realloc` get a null pointer or a live one, and a store
stays inside the bytes requested. -/
def Op.Valid (live : Nat → Nat) : Op → Prop
  | .malloc size => size < 2 ^ 64
  | .calloc nmemb size => nmemb < 2 ^ 64 ∧ size < 2 ^ 64
  | .realloc ptr size => (ptr = 0 ∨ live ptr ≠ 0) ∧ size < 2 ^ 64
  | .free ptr => ptr = 0 ∨ live ptr ≠ 0
  | .store ptr off data => off + data.length ≤ live ptr

/-- The states the program can bring the allocator to. -/
inductive Reachable {κ : Type} (K : Kernel κ) : State κ → Prop
  | start (mem : Mem) (errno : Nat) (kern : κ) :
    Reachable K ⟨⟨mem, fun _ => 0, [], errno, kern⟩, fun _ => 0⟩
  | call {st : State κ} (op : Op) :
    Reachable K st → op.Valid st.live → Reachable K (step K op st)

end Dietlibc.Alloc
