import Dietlibc.Base.Mem

/-!
# `qsort`

The array is the memory from `base` on, `n` elements of `size` bytes. An access to an element that is
not there is a fault. The comparator gets the bytes of two elements; it may remember the calls made
before, in a state that `rand` shares, so that it need not answer the same way twice.
-/

namespace Dietlibc.Sort

/-- An access outside the array, and too little fuel for a loop or the recursion. -/
inductive Stop where
  | fault
  | fuel
  deriving DecidableEq

/-- `compar` and `rand`. -/
structure Oracle (σ : Type) where
  compar : σ → List UInt8 → List UInt8 → Int × σ
  rand : σ → Nat × σ

/-- The bytes of element `k`. -/
def elem (size : Nat) (m : Mem) (k : Nat) : List UInt8 := m.load (k * size) size

/-! ## `exch` -/

/-- The loop of `exch`. -/
def exchLoop : Nat → Nat → Nat → Mem → Mem
  | 0, _, _, m => m
  | size + 1, x, y, m =>
    let z := m x
    exchLoop size (x + 1) (y + 1) (Function.update (Function.update m x (m y)) y z)

/-- The index is that of an element. -/
abbrev InRange (n : Nat) (k : Int) : Prop := 0 ≤ k ∧ k < n

def exch (n size : Nat) (a b : Int) (m : Mem) : Except Stop Mem :=
  if InRange n a ∧ InRange n b then .ok (exchLoop size (a.toNat * size) (b.toNat * size) m)
  else .error .fault

section

variable {σ : Type} (o : Oracle σ) (n size : Nat)

/-- `compar(base+a*size,base+b*size)` -/
def compare (m : Mem) (a b : Int) (s : σ) : Except Stop (Int × σ) :=
  if InRange n a ∧ InRange n b then .ok (o.compar s (elem size m a.toNat) (elem size m b.toNat))
  else .error .fault

/-! ## `quicksort` -/

/-- `while (++i != r && compar(base+i*size,v)<0) ;` -/
def scanUp (m : Mem) (r : Int) : Nat → Int → σ → Except Stop (Int × σ)
  | 0, _, _ => .error .fuel
  | f + 1, i, s =>
    if i + 1 = r then .ok (i + 1, s)
    else do
      let (c, s) ← compare o n size m (i + 1) r s
      if c < 0 then scanUp m r f (i + 1) s else return (i + 1, s)

/-- `while (compar(v,base+(--j)*size)<0) if (j == l) break;` -/
def scanDown (m : Mem) (l r : Int) : Nat → Int → σ → Except Stop (Int × σ)
  | 0, _, _ => .error .fuel
  | f + 1, j, s => do
    let (c, s) ← compare o n size m r (j - 1) s
    if c < 0 then
      if j - 1 = l then return (j - 1, s) else scanDown m l r f (j - 1) s
    else return (j - 1, s)

/-- `if (compar(base+i*size,v)==0) exch(base,size,++p,i);` -/
def parkLow (r i p : Int) (m : Mem) (s : σ) : Except Stop (Int × Mem × σ) := do
  let (c, s) ← compare o n size m i r s
  if c = 0 then return (p + 1, ← exch n size (p + 1) i m, s) else return (p, m, s)

/-- `if (compar(v,base+j*size)==0) exch(base,size,j,--q);` -/
def parkHigh (r j q : Int) (m : Mem) (s : σ) : Except Stop (Int × Mem × σ) := do
  let (c, s) ← compare o n size m r j s
  if c = 0 then return (q - 1, ← exch n size j (q - 1) m, s) else return (q, m, s)

/-- Where the loop `for (;;)` ends: `i`, `p` and `q`, and the array. -/
structure Ends (σ : Type) where
  i : Int
  p : Int
  q : Int
  m : Mem
  s : σ

/-- The loop `for (;;)`. The fuel counts its turns. -/
def partLoop (l r : Int) : Nat → Int → Int → Int → Int → Mem → σ → Except Stop (Ends σ)
  | 0, _, _, _, _, _, _ => .error .fuel
  | f + 1, i, j, p, q, m, s => do
    let (i, s) ← scanUp o n size m r (n + 1) i s
    let (j, s) ← scanDown o n size m l r (n + 1) j s
    if j ≤ i then return ⟨i, p, q, m, s⟩
    else do
      let m ← exch n size i j m
      let (p, m, s) ← parkLow o n size r i p m s
      let (q, m, s) ← parkHigh o n size r j q m s
      partLoop l r f i j p q m s

/-- `for (k=l; k<p; k++, j--) exch(base,size,k,j);` -/
def unparkLow (p k j : Int) (m : Mem) : Except Stop (Int × Mem) :=
  if k < p then do unparkLow p (k + 1) (j - 1) (← exch n size k j m) else .ok (j, m)
termination_by (p - k).toNat

/-- `for (k=r-1; k>q; k--, i++) exch(base,size,i,k);` -/
def unparkHigh (q k i : Int) (m : Mem) : Except Stop (Int × Mem) :=
  if q < k then do unparkHigh q (k - 1) (i + 1) (← exch n size i k m) else .ok (i, m)
termination_by (k - q).toNat

/-- `quicksort`. The fuel counts the calls that are open. -/
def quicksort : Nat → Int → Int → Mem → σ → Except Stop (Mem × σ)
  | 0, _, _, _, _ => .error .fuel
  | f + 1, l, r, m, s =>
    if r ≤ l then .ok (m, s)
    else do
      let (x, s) := o.rand s
      let m ← exch n size (l + x % (r - l)) r m
      let e ← partLoop o n size l r (n + 1) (l - 1) r (l - 1) r m s
      let m ← exch n size e.i r e.m
      let (j, m) ← unparkLow n size e.p l (e.i - 1) m
      let (i, m) ← unparkHigh n size e.q (r - 1) (e.i + 1) m
      let (m, s) ← quicksort f l j m e.s
      quicksort f i r m s

/-- `qsort` -/
def qsort (m : Mem) (s : σ) : Except Stop (Mem × σ) :=
  if 2 ^ 63 - 1 ≤ n ∨ 2 ^ 63 - 1 ≤ size then .ok (m, s)
  else if 1 < n then quicksort o n size (n + 1) 0 (n - 1) m s
  else .ok (m, s)

end

end Dietlibc.Sort
