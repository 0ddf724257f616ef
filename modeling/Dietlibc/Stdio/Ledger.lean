import Dietlibc.Stdio.Output

/-!
# Where the bytes of an output stream are

Every byte that a program hands to a stream has a position, counted over all its calls. A `Ledger`
records the positions of the bytes that are pending in the buffer and of those that each write has
taken. The functions of this file follow the control flow of the output functions step by step and
keep the ledger; the stream and the kernel are those of the model. `Booked` is what they keep:
behind any call the buffer holds the bytes at the pending positions, and the kernel has taken the
bytes at the delivered ones.
-/

namespace Dietlibc.Stdio

open CInt

variable {σ : Type}

/-! ## The ledger -/

structure Ledger where
  /-- the positions of `buf[0..bm)` -/
  pending : List Nat
  /-- what each write that returned a count has taken -/
  delivered : List (List Nat)
  /-- a write of `fflush_unlocked` took some of the pending bytes and not all of them -/
  torn : Bool

/-- The positions that are on record, the delivered ones first. -/
def Ledger.all (g : Ledger) : List Nat := g.delivered.flatten ++ g.pending

/-- A write of the bytes at `ps` was answered. -/
def Ledger.answer (g : Ledger) (ps : List Nat) (r : WriteRes) : Ledger :=
  match r with
  | .wrote n => { g with delivered := g.delivered ++ [ps.take n] }
  | _ => g

/-- The bytes at `ps` were copied behind those in the buffer. -/
def Ledger.store (g : Ledger) (ps : List Nat) : Ledger := { g with pending := g.pending ++ ps }

/-- The kernel with a record of what each write has taken. -/
def accepting (d : Dev σ) : Dev (σ × List (List UInt8)) where
  read := fun (s, t) n => let (r, s) := d.read s n; (r, s, t)
  write := fun (s, t) data =>
    let (r, s) := d.write s data
    (r, s, match r with
      | .wrote n => t ++ [data.take n]
      | _ => t)
  lseek := fun (s, t) o w => let (r, s) := d.lseek s o w; (r, s, t)
  isatty := fun (s, _) => d.isatty s
  patience := fun (s, _) => d.patience s
  read_le := fun (s, _) n bs s' h =>
    d.read_le s n bs s'.1 (by rw [← (Prod.mk.inj h).1, ← (Prod.mk.inj h).2])
  eintr_lt := fun (s, _) data s' h =>
    d.eintr_lt s data s'.1 (by rw [← (Prod.mk.inj h).1, ← (Prod.mk.inj h).2])

/-! ## The output functions, with the ledger -/

section

variable (d : Dev σ)

/-- `fflush_unlocked` -/
def fflushLedger (f : File) (s : σ) (g : Ledger) : Ledger :=
  if f.bufinput ∨ f.bm = 0 then g
  else
    let r := (d.write s f.pending).1
    if r = .wrote f.bm then { g.answer g.pending r with pending := [] }
    else { g.answer g.pending r with torn := g.torn || (r ≠ .wrote 0 && r ≠ .eintr && r ≠ .error) }

/-- `__fflush4` with the direction of output. -/
def fflush4Ledger (f : File) (s : σ) (g : Ledger) : Ledger :=
  if f.bufinput = false then g else fflushLedger d f s g

/-- The tail of `fputc_unlocked` for the byte at position `p`, and whether the byte was taken. -/
def putBufLedger (p : Nat) (c : Int) (f : File) (s : σ) (g : Ledger) : Bool × Ledger :=
  if f.nobuf then
    let r := (d.write s [uchar c]).1
    (r ≠ .wrote 0 && r ≠ .eintr && r ≠ .error, g.answer [p] r)
  else
    let f := { f with buf := f.buf.store f.bm [uchar c], bm := f.bm + 1 }
    (true, if f.buflinewise ∧ c = 10 then fflushLedger d f s (g.store [p]) else g.store [p])

/-- `fputc_unlocked` -/
def fputcLedger (p : Nat) (c : Int) (f : File) (s : σ) (g : Ledger) : Bool × Ledger :=
  if !f.canwrite then (false, g)
  else
    let g := fflush4Ledger d f s g
    match fflush4 d f s false with
    | (false, _, _) => (false, g)
    | (true, f, s) =>
      if usub 32 f.buflen 1 ≤ f.bm then
        let g := fflushLedger d f s g
        match fflushUnlocked d f s with
        | (true, f, s) => putBufLedger d p c f s g
        | (false, _, _) => (false, g)
      else putBufLedger d p c f s g

/-- The line-wise copy loop, and how many bytes were taken. -/
def lineLoopLedger : Nat → List UInt8 → File → σ → Ledger → Nat × Ledger
  | _, [], _, _, g => (0, g)
  | p, c :: cs, f, s, g =>
    let f := { f with buf := f.buf.store f.bm [c], bm := f.bm + 1 }
    let g := g.store [p]
    if c = newline then
      let g := fflushLedger d f s g
      match fflushUnlocked d f s with
      | (true, f, s) => let (k, g) := lineLoopLedger (p + 1) cs f s g; (k + 1, g)
      | (false, _, _) => (1, g)
    else let (k, g) := lineLoopLedger (p + 1) cs f s g; (k + 1, g)

/-- The loop over `fputc_unlocked`, and how many bytes were taken. -/
def putLoopLedger : Nat → List UInt8 → File → σ → Ledger → Nat × Ledger
  | _, [], _, _, g => (0, g)
  | p, c :: cs, f, s, g =>
    let (taken, g) := fputcLedger d p (charToInt c) f s g
    match fputcUnlocked d (charToInt c) f s with
    | (true, f, s) => let (k, g) := putLoopLedger (p + 1) cs f s g; (k + 1, g)
    | (false, _, _) => (if taken then 1 else 0, g)

/-- How `fwrite_unlocked` is left. -/
inductive Exit where
  /-- the size overflows -/
  | refused
  /-- there are no items -/
  | nothing
  /-- the flush in front of the direct write fails -/
  | unflushed
  /-- behind the direct write -/
  | direct (res : Option Nat)
  /-- the flush behind the copy fails, `k` bytes having been taken -/
  | copied (k : Nat)
  /-- the flush behind a newline fails, `k` bytes having been taken -/
  | line (k : Nat)
  /-- `fputc_unlocked` fails with `left` bytes left, `k` bytes having been taken -/
  | bytes (left k : Nat)
  | done
  deriving DecidableEq

/-- The last part of `fwrite_unlocked`, `n` bytes having been taken. -/
def fwriteRestLedger (p n : Nat) (rest : List UInt8) (f : File) (s : σ) (g : Ledger) :
    Exit × Ledger :=
  let (k, g) := putLoopLedger d p rest f s g
  match (putLoop d rest f s).1 with
  | 0 => (.done, g)
  | left + 1 => (.bytes (left + 1) (n + k), g)

/-- The block at `again:`, `n` bytes having been taken. -/
def fwriteAgainLedger (p n : Nat) (ptr : List UInt8) (f : File) (s : σ) (g : Ledger) :
    Exit × Ledger :=
  let todo := min (usub 32 f.buflen f.bm) ptr.length
  if todo = 0 then fwriteRestLedger d p n ptr f s g
  else
    let f := checkTty d f s
    if f.buflinewise then
      let (k, g) := lineLoopLedger d p (ptr.take todo) f s g
      match lineLoop d (ptr.take todo) f s with
      | (true, f, s) => fwriteRestLedger d (p + todo) (n + todo) (ptr.drop todo) f s g
      | (false, _, _) => (.line (n + k), g)
    else
      let f := { f with buf := f.buf.store f.bm (ptr.take todo), bm := f.bm + todo }
      let g := g.store (List.range' p todo)
      if f.bm = f.buflen then
        let g := fflushLedger d f s g
        match fflushUnlocked d f s with
        | (false, _, _) => (.copied (n + todo), g)
        | (true, f, s) =>
          if (ptr.drop todo).length = 0 then (.done, g)
          else fwriteAgainLedger (p + todo) (n + todo) (ptr.drop todo) f s g
      else (.done, g)
termination_by ptr.length
decreasing_by simp only [List.length_drop]; omega

/-- `fwrite_unlocked` of bytes whose positions start at `p`. -/
def fwriteLedger (p : Nat) (data : List UInt8) (size nmemb : Nat) (f : File) (s : σ)
    (g : Ledger) : Exit × Ledger :=
  let len := size * nmemb % 2 ^ 64
  if !f.canwrite then (.refused, g)
  else
    let g := fflush4Ledger d f s g
    match fflush4 d f s false with
    | (false, _, _) => (.refused, g)
    | (true, f, s) =>
      if nmemb = 0 then (.nothing, g)
      else if len / nmemb ≠ size then (.refused, g)
      else if f.buflen < len ∨ f.nobuf then
        let g := fflushLedger d f s g
        match fflushUnlocked d f s with
        | (false, _, _) => (.unflushed, g)
        | (true, _, s) =>
          match (writeRetry d data s).1 with
          | none => (.direct none, g)
          | some res => (.direct (some res), g.answer (List.range' p data.length) (.wrote res))
      else fwriteAgainLedger d p 0 data f s g

/-- The bytes that a call hands over, which take the next positions. -/
def Op.handed : Op → List UInt8
  | .fputc c => [uchar c]
  | .fwrite data _ _ => data
  | _ => []

/-- One output call whose bytes start at position `p`. -/
def execLedger (p : Nat) (op : Op) (f : File) (s : σ) (g : Ledger) : Ledger :=
  match op with
  | .fputc c => (fputcLedger d p c f s g).2
  | .fwrite data size nmemb => (fwriteLedger d p data size nmemb f s g).2
  | .fflush => fflushLedger d f s g
  | _ => g

/-- The calls in order. -/
def runLedger : Nat → List Op → File → σ → Ledger → Ledger
  | _, [], _, _, g => g
  | p, op :: ops, f, s, g =>
    let g := execLedger d p op f s g
    let (_, f, s) := exec d op f s
    runLedger (p + op.handed.length) ops f s g

end

/-- Nothing has been handed over yet. -/
def Ledger.empty : Ledger := ⟨[], [], false⟩

end Dietlibc.Stdio
