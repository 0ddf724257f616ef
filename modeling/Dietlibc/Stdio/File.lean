import Dietlibc.Base.CInt
import Dietlibc.Base.Mem

/-!
# Streams

`struct __stdio_file` and the functions of `libstdio` that read, write and position a stream.
A function takes the stream and the state `s` of the kernel behind its descriptor, and returns
both changed. The kernel is a parameter (`Dev`): what `read`, `write`, `lseek` and `isatty`
answer.

Left out: `fflush(NULL)`, the `atexit` registration and the flush of `stdout` that
`__fflush4` makes before a terminal is read through descriptor 0; none of them touches the
stream at hand.
-/

namespace Dietlibc.Stdio

inductive Whence where
  | set
  | cur
  | fin
  deriving DecidableEq

/-- The answer of `write(2)`: a byte count, or `-1` with `errno` equal to `EINTR` or not. -/
inductive WriteRes where
  | wrote (n : Nat)
  | eintr
  | error
  deriving DecidableEq

/-- The kernel behind a descriptor. `read` answers `none` for `-1`. `patience` bounds the
number of `EINTR` answers in a row. -/
structure Dev (σ : Type) where
  read : σ → Nat → Option (List UInt8) × σ
  write : σ → List UInt8 → WriteRes × σ
  lseek : σ → Int → Whence → Option Nat × σ
  isatty : σ → Bool
  patience : σ → Nat
  read_le : ∀ s n bs s', read s n = (some bs, s') → bs.length ≤ n
  eintr_lt : ∀ s d s', write s d = (.eintr, s') → patience s' < patience s

/-- `struct __stdio_file`, its `flags` one by one. -/
structure File where
  error : Bool
  eof : Bool
  bufinput : Bool
  buflinewise : Bool
  nobuf : Bool
  fdpipe : Bool
  canread : Bool
  canwrite : Bool
  checklinewise : Bool
  bs : Nat
  bm : Nat
  buflen : Nat
  buf : Mem
  ungetbuf : UInt8
  ungotten : Bool

/-- `buf[0..bm)`: in an output buffer, the bytes not yet written. -/
def File.pending (f : File) : List UInt8 := f.buf.load 0 f.bm

/-- `(unsigned char)c`. -/
def uchar (c : Int) : UInt8 := UInt8.ofNat (c % 256).toNat

/-- A byte read through a `char*` and promoted to `int`. -/
def charToInt (b : UInt8) : Int := if b.toNat < 128 then b.toNat else b.toNat - 256

/-- `'\n'`. -/
def newline : UInt8 := 10

section

variable {σ : Type} (d : Dev σ)

/-! ## `fflush.c` -/

/-- `fflush_unlocked` on a stream: whether it returns `0`. -/
def fflushUnlocked (f : File) (s : σ) : Bool × File × σ :=
  if f.bufinput then
    let tmp := CInt.conv 32 (f.bm - f.bs)
    let s := if tmp ≠ 0 then (d.lseek s (if f.ungotten then tmp - 1 else tmp) .cur).2 else s
    (true, { f with bs := 0, bm := 0, ungotten := false }, s)
  else if f.bm = 0 then (true, { f with ungotten := false }, s)
  else
    let (r, s) := d.write s f.pending
    if r = .wrote f.bm then (true, { f with bm := 0, ungotten := false }, s)
    else (false, { f with error := true }, s)

/-- `__fflush4`. -/
def fflush4 (f : File) (s : σ) (next : Bool) : Bool × File × σ :=
  if f.bufinput = next then (true, f, s)
  else
    let (r, f, s) := fflushUnlocked d f s
    (r, { f with bufinput := next }, s)

/-! ## `fgetc_unlocked.c`, `fgets.c`, `ungetc.c` -/

/-- The refill of `fgetc_unlocked` and the first byte of it. -/
def refill (f : File) (s : σ) : Option UInt8 × File × σ :=
  match d.read s f.buflen with
  | (some [], s) => (none, { f with eof := true }, s)
  | (none, s) => (none, { f with error := true }, s)
  | (some bs, s) =>
    let buf := f.buf.store 0 bs
    (some (buf 0), { f with buf, bm := 1, bs := bs.length }, s)

/-- `fgetc_unlocked`: `none` is `EOF`. -/
def fgetcUnlocked (f : File) (s : σ) : Option UInt8 × File × σ :=
  if !f.canread then (none, { f with error := true }, s)
  else if f.ungotten then (some f.ungetbuf, { f with ungotten := false }, s)
  else if f.bm < f.bs then (some (f.buf f.bm), { f with bm := f.bm + 1 }, s)
  else if f.eof then (none, f, s)
  else
    match fflush4 d f s true with
    | (false, f, s) => (none, f, s)
    | (true, f, s) =>
      if f.bs ≤ f.bm then refill d f s
      else (some (f.buf f.bm), { f with bm := f.bm + 1 }, s)

/-- The loop of `fgets_unlocked` with `n` places left before the terminator; `l` holds the
bytes stored so far. The second component tells whether the input ended. -/
def fgetsLoop : Nat → List UInt8 → File → σ → List UInt8 × Bool × File × σ
  | 0, l, f, s => (l, false, f, s)
  | n + 1, l, f, s =>
    if l ≠ [] ∧ f.bm < f.bs then
      let c := f.buf f.bm
      let f := { f with bm := f.bm + 1 }
      if c = newline then (l ++ [c], false, f, s) else fgetsLoop n (l ++ [c]) f s
    else
      match fgetcUnlocked d f s with
      | (none, f, s) => (l, true, f, s)
      | (some c, f, s) => if c = newline then (l ++ [c], false, f, s) else fgetsLoop n (l ++ [c]) f s

/-- `fgets_unlocked`: the bytes stored before the terminator, `none` for a null pointer. -/
def fgetsUnlocked (size : Int) (f : File) (s : σ) : Option (List UInt8) × File × σ :=
  if size ≤ 0 then (none, f, s)
  else
    match fgetsLoop d (size - 1).toNat [] f s with
    | (l, ended, f, s) => (if ended ∧ l = [] then none else some l, f, s)

/-- `ungetc_unlocked`: whether it succeeds. -/
def ungetcUnlocked (c : Int) (f : File) : Bool × File :=
  if f.ungotten ∨ c < 0 ∨ 255 < c then (false, f)
  else
    let f :=
      if f.bm ≠ 0 ∧ charToInt (f.buf (f.bm - 1)) = c then { f with bm := f.bm - 1 }
      else { f with ungotten := true, ungetbuf := uchar c }
    (true, { f with error := false, eof := false })

/-! ## `fread.c` -/

/-- How the direct reads of `fread_unlocked` ended. -/
inductive ReadEnd where
  | full
  | eof
  | error
  deriving DecidableEq

/-- `while((res = __libc_read(stream->fd, ptr + i, tmp)) < (ssize_t)tmp)`; `out` is what
`ptr` holds. -/
def readLoop (tmp : Nat) (out : List UInt8) (s : σ) : ReadEnd × List UInt8 × σ :=
  match d.read s tmp with
  | (none, s) => (.error, out, s)
  | (some bs, s) =>
    if bs.length < tmp then
      if bs = [] then (.eof, out, s) else readLoop (tmp - bs.length) (out ++ bs) s
    else (.full, out ++ bs, s)
termination_by tmp
decreasing_by
  have := List.length_pos_iff.mpr ‹bs ≠ []›
  omega

/-- `for(; i < j; ++i)`: `n` more bytes through `fgetc_unlocked`. -/
def getcLoop : Nat → List UInt8 → File → σ → Bool × List UInt8 × File × σ
  | 0, out, f, s => (true, out, f, s)
  | n + 1, out, f, s =>
    match fgetcUnlocked d f s with
    | (none, f, s) => (false, out, f, s)
    | (some c, f, s) => getcLoop n (out ++ [c]) f s

/-- What `fread_unlocked` does once the buffer is used up: large requests are read straight
into `ptr`, unless from a pipe. -/
def freadRest (size nmemb j : Nat) (out : List UInt8) (f : File) (s : σ) :
    Nat × List UInt8 × File × σ :=
  if !f.fdpipe ∧ f.buflen < j then
    match readLoop d (j - out.length) out s with
    | (.full, out, s) => (nmemb, out, f, s)
    | (.eof, out, s) => (out.length / size, out, { f with eof := true }, s)
    | (.error, out, s) => (out.length / size, out, { f with error := true }, s)
  else
    match getcLoop d (j - out.length) out f s with
    | (true, out, f, s) => (nmemb, out, f, s)
    | (false, out, f, s) => (out.length / size, out, f, s)

/-- `memcpy(ptr + i, stream->buf + stream->bm, tocopy)` and what follows it. -/
def freadCopy (size nmemb j : Nat) (out : List UInt8) (f : File) (s : σ) :
    Nat × List UInt8 × File × σ :=
  let inbuf := CInt.usub 32 f.bs f.bm
  let tocopy := if inbuf < j then inbuf else j
  let out := out ++ f.buf.load f.bm tocopy
  let bm := (f.bm + tocopy) % 2 ^ 32
  let f := if bm = f.bs then { f with bm := 0, bs := 0 } else { f with bm }
  if out.length = j then (nmemb, out, f, s) else freadRest d size nmemb j out f s

/-- `fread_unlocked` past the pushed-back byte; `out` holds that byte or nothing. -/
def freadBuf (size nmemb j : Nat) (out : List UInt8) (f : File) (s : σ) :
    Nat × List UInt8 × File × σ :=
  if CInt.usub 32 f.bs f.bm = 0 then
    match d.read s f.buflen with
    | (none, s) => (out.length / size, out, { f with bm := 0, error := true }, s)
    | (some [], s) => (out.length / size, out, { f with bm := 0, eof := true }, s)
    | (some bs, s) =>
      freadCopy d size nmemb j out { f with bm := 0, bs := bs.length, buf := f.buf.store 0 bs } s
  else freadCopy d size nmemb j out f s

/-- `fread_unlocked`: the value returned and the bytes stored at `ptr`. -/
def freadUnlocked (size nmemb : Nat) (f : File) (s : σ) : Nat × List UInt8 × File × σ :=
  let j := size * nmemb % 2 ^ 64
  if !f.canread then (0, [], { f with error := true }, s)
  else if j = 0 ∨ j / nmemb ≠ size then (0, [], f, s)
  else if f.ungotten then
    let f := { f with ungotten := false }
    if j = 1 then (1, [f.ungetbuf], f, s) else freadBuf d size nmemb j [f.ungetbuf] f s
  else freadBuf d size nmemb j [] f s

/-! ## `fputc_unlocked.c`, `fwrite.c` -/

/-- The tail of `fputc_unlocked`: whether the byte was taken. -/
def putBuf (c : Int) (f : File) (s : σ) : Bool × File × σ :=
  if f.nobuf then
    match d.write s [uchar c] with
    | (.wrote 1, s) => (true, f, s)
    | (_, s) => (false, { f with error := true }, s)
  else
    let f := { f with buf := f.buf.store f.bm [uchar c], bm := f.bm + 1 }
    if f.buflinewise ∧ c = 10 then
      match fflushUnlocked d f s with
      | (true, f, s) => (true, f, s)
      | (false, f, s) => (false, { f with error := true }, s)
    else (true, f, s)

/-- `fputc_unlocked`: whether the byte was taken. -/
def fputcUnlocked (c : Int) (f : File) (s : σ) : Bool × File × σ :=
  if !f.canwrite then (false, { f with error := true }, s)
  else
    match fflush4 d f s false with
    | (false, f, s) => (false, { f with error := true }, s)
    | (true, f, s) =>
      if CInt.usub 32 f.buflen 1 ≤ f.bm then
        match fflushUnlocked d f s with
        | (true, f, s) => putBuf d c f s
        | (false, f, s) => (false, { f with error := true }, s)
      else putBuf d c f s

/-- `do res = __libc_write(...); while(res == -1 && errno == EINTR)`. -/
def writeRetry (data : List UInt8) (s : σ) : Option Nat × σ :=
  match _h : d.write s data with
  | (.wrote n, s') => (some n, s')
  | (.error, s') => (none, s')
  | (.eintr, s') => writeRetry data s'
termination_by d.patience s
decreasing_by exact d.eintr_lt _ _ _ _h

/-- The line-wise copy loop: each byte into the buffer, a flush at each newline. -/
def lineLoop : List UInt8 → File → σ → Bool × File × σ
  | [], f, s => (true, f, s)
  | c :: cs, f, s =>
    let f := { f with buf := f.buf.store f.bm [c], bm := f.bm + 1 }
    if c = newline then
      match fflushUnlocked d f s with
      | (true, f, s) => lineLoop cs f s
      | (false, f, s) => (false, f, s)
    else lineLoop cs f s

/-- `for(i = done; i < len; ++i)`: the bytes that did not fit, one by one. The number
returned is that of the bytes not taken. -/
def putLoop : List UInt8 → File → σ → Nat × File × σ
  | [], f, s => (0, f, s)
  | c :: cs, f, s =>
    match fputcUnlocked d (charToInt c) f s with
    | (true, f, s) => putLoop cs f s
    | (false, f, s) => (cs.length + 1, f, s)

/-- The last part of `fwrite_unlocked`: `rest` is what is left of the `len` bytes. A stream
that stops taking bytes leaves `res = len - i`. -/
def fwriteRest (size len : Nat) (rest : List UInt8) (f : File) (s : σ) : Nat × File × σ :=
  match putLoop d rest f s with
  | (0, f, s) => (if size = 0 then 0 else len / size, f, s)
  | (n + 1, f, s) => (if size = 0 then 0 else (n + 1) / size, f, s)

/-- The check made on the first write to a line-buffered stream: whether it stays one. -/
def checkTty (f : File) (s : σ) : File :=
  if f.buflinewise ∧ f.checklinewise then
    { f with checklinewise := false, buflinewise := d.isatty s }
  else f

/-- The block at `again:` of `fwrite_unlocked`, with `ptr` the bytes still to be written. -/
def fwriteAgain (size nmemb : Nat) (ptr : List UInt8) (f : File) (s : σ) : Nat × File × σ :=
  let todo := min (CInt.usub 32 f.buflen f.bm) ptr.length
  if todo = 0 then fwriteRest d size ptr.length ptr f s
  else
    let f := checkTty d f s
    if f.buflinewise then
      match lineLoop d (ptr.take todo) f s with
      | (true, f, s) => fwriteRest d size ptr.length (ptr.drop todo) f s
      | (false, f, s) => (0, { f with error := true }, s)
    else
      let f := { f with buf := f.buf.store f.bm (ptr.take todo), bm := f.bm + todo }
      if f.bm = f.buflen then
        match fflushUnlocked d f s with
        | (false, f, s) => (0, f, s)
        | (true, f, s) =>
          if (ptr.drop todo).length = 0 then (nmemb, f, s)
          else fwriteAgain size nmemb (ptr.drop todo) f s
      else (nmemb, f, s)
termination_by ptr.length
decreasing_by simp only [List.length_drop]; omega

/-- `fwrite_unlocked` of the `size * nmemb` bytes `data`. -/
def fwriteUnlocked (data : List UInt8) (size nmemb : Nat) (f : File) (s : σ) : Nat × File × σ :=
  let len := size * nmemb % 2 ^ 64
  if !f.canwrite then (0, { f with error := true }, s)
  else
    match fflush4 d f s false with
    | (false, f, s) => (0, { f with error := true }, s)
    | (true, f, s) =>
      if nmemb = 0 ∨ len / nmemb ≠ size then (0, f, s)
      else if f.buflen < len ∨ f.nobuf then
        match fflushUnlocked d f s with
        | (false, f, s) => (0, f, s)
        | (true, f, s) =>
          match writeRetry d data s with
          | (none, s) => (0, { f with error := true }, s)
          | (some res, s) => (if size = 0 then 0 else res / size, f, s)
      else fwriteAgain d size nmemb data f s

/-! ## `fseek.c` -/

/-- `fseek_unlocked`: whether it returns `0`. -/
def fseekUnlocked (offset : Int) (whence : Whence) (f : File) (s : σ) : Bool × File × σ :=
  let (_, f, s) := fflushUnlocked d f s
  let f := { f with bm := 0, bs := 0, error := false, eof := false, ungotten := false }
  match d.lseek s offset whence with
  | (some _, s) => (true, f, s)
  | (none, s) => (false, f, s)

end

/-! ## Calls and runs -/

inductive Op where
  | fgetc
  | fread (size nmemb : Nat)
  | fgets (size : Int)
  | ungetc (c : Int)
  | fputc (c : Int)
  | fwrite (data : List UInt8) (size nmemb : Nat)
  | fflush
  | fseek (offset : Int) (whence : Whence)
  deriving DecidableEq

/-- The value a call returns, with the bytes it stores. -/
inductive Res where
  | byte (c : Option UInt8)
  | items (n : Nat) (out : List UInt8)
  | line (l : Option (List UInt8))
  | status (ok : Bool)
  | wrote (n : Nat)
  deriving DecidableEq

/-- One call. -/
def exec {σ : Type} (d : Dev σ) (op : Op) (f : File) (s : σ) : Res × File × σ :=
  match op with
  | .fgetc => let (r, f, s) := fgetcUnlocked d f s; (.byte r, f, s)
  | .fread size nmemb => let (n, out, f, s) := freadUnlocked d size nmemb f s; (.items n out, f, s)
  | .fgets size => let (r, f, s) := fgetsUnlocked d size f s; (.line r, f, s)
  | .ungetc c => let (r, f) := ungetcUnlocked c f; (.status r, f, s)
  | .fputc c => let (r, f, s) := fputcUnlocked d c f s; (.status r, f, s)
  | .fwrite data size nmemb =>
    let (n, f, s) := fwriteUnlocked d data size nmemb f s; (.wrote n, f, s)
  | .fflush => let (r, f, s) := fflushUnlocked d f s; (.status r, f, s)
  | .fseek offset whence => let (r, f, s) := fseekUnlocked d offset whence f s; (.status r, f, s)

/-- The calls in order. -/
def run {σ : Type} (d : Dev σ) : List Op → File → σ → List Res × File × σ
  | [], f, s => ([], f, s)
  | op :: ops, f, s =>
    let (r, f, s) := exec d op f s
    let (rs, f, s) := run d ops f s
    (r :: rs, f, s)

/-- The array behind an argument of `fread` or `fwrite` exists: its size is computed without
overflow and does not exceed `PTRDIFF_MAX`. A call whose size overflows names no array. -/
def Op.Valid : Op → Prop
  | .fread size nmemb => size * nmemb < 2 ^ 63 ∨ 2 ^ 64 ≤ size * nmemb
  | .fwrite data size nmemb =>
    (data.length = size * nmemb ∧ size * nmemb < 2 ^ 63) ∨ 2 ^ 64 ≤ size * nmemb
  | _ => True

end Dietlibc.Stdio
