import Dietlibc.Stdio.Output

/-!
# Streams for update on a regular file

`regular` is the kernel behind the descriptor of a regular file: the bytes of the file and an
offset. `Plain` is the unbuffered model, which performs each call directly on the bytes and a
position, with the bytes pushed back by `ungetc` in front. `Lawful` are the sequences of calls
that C allows on a stream for update.
-/

namespace Dietlibc.Stdio

/-! ## The file -/

/-- The bytes `d` written at `off`; a gap in front of them is filled with zeros. -/
def overwrite (bytes : List UInt8) (off : Nat) (d : List UInt8) : List UInt8 :=
  if d = [] then bytes
  else (bytes ++ List.replicate (off - bytes.length) 0).take off ++ d ++
    bytes.drop (off + d.length)

/-- A regular file that is open. -/
structure Regular where
  bytes : List UInt8
  off : Nat
  deriving DecidableEq

/-- The offset that `whence` counts from. -/
def Whence.base (bytes : List UInt8) (pos : Int) : Whence → Int
  | .set => 0
  | .cur => pos
  | .fin => bytes.length

/-- Reads up to the end of the file, and full writes. -/
def regular : Dev Regular where
  read s n :=
    let bs := (s.bytes.drop s.off).take n
    (some bs, { s with off := s.off + bs.length })
  write s d := (.wrote d.length, ⟨overwrite s.bytes s.off d, s.off + d.length⟩)
  lseek s offset whence :=
    let target := whence.base s.bytes s.off + offset
    if target < 0 then (none, s) else (some target.toNat, { s with off := target.toNat })
  isatty _ := false
  patience _ := 0
  read_le s n bs s' h := by
    cases h
    exact List.length_take_le n _
  eintr_lt s d s' h := by cases h

/-! ## The unbuffered model -/

/-- The bytes of the file, the position, and the bytes pushed back in front of it. -/
structure Plain where
  bytes : List UInt8
  pos : Nat
  pushed : List UInt8
  deriving DecidableEq

namespace Plain

/-- What input is to come. -/
def next (m : Plain) : List UInt8 := m.pushed ++ m.bytes.drop m.pos

/-- The file position, one less for each byte pushed back. -/
def tell (m : Plain) : Int := m.pos - m.pushed.length

/-- `n` bytes read, or as many as there are. -/
def skip (m : Plain) (n : Nat) : Plain :=
  { m with
    pos := m.pos + min (n - m.pushed.length) (m.bytes.length - m.pos)
    pushed := m.pushed.drop n }

/-- The position moved; nothing is pushed back there. -/
def goto (m : Plain) (pos : Nat) : Plain := { m with pos, pushed := [] }

/-- `d` written at the file position. -/
def write (m : Plain) (d : List UInt8) : Plain where
  bytes := overwrite m.bytes m.tell.toNat d
  pos := m.tell.toNat + d.length
  pushed := []

end Plain

/-- The bytes of a line that fit into `n` places: up to the newline. -/
def lineOf : Nat → List UInt8 → List UInt8
  | 0, _ => []
  | _, [] => []
  | n + 1, c :: cs => if c = newline then [c] else c :: lineOf n cs

/-- How many bytes a call of `fread` asks for; an array whose size overflows does not exist. -/
def wanted (size nmemb : Nat) : Nat := if size * nmemb < 2 ^ 64 then size * nmemb else 0

/-- One call on the unbuffered model. -/
def Plain.exec (op : Op) (m : Plain) : Res × Plain :=
  match op with
  | .fgetc => (.byte m.next.head?, m.skip 1)
  | .fread size nmemb =>
    let out := m.next.take (wanted size nmemb)
    (.items (out.length / size) out, m.skip (wanted size nmemb))
  | .fgets size =>
    let l := lineOf (size - 1).toNat m.next
    if size ≤ 0 then (.line none, m)
    else if 1 < size ∧ m.next = [] then (.line none, m)
    else (.line (some l), m.skip l.length)
  | .ungetc c =>
    if 0 ≤ c ∧ c ≤ 255 then (.status true, { m with pushed := uchar c :: m.pushed })
    else (.status false, m)
  | .fputc c => (.status true, m.write [uchar c])
  | .fwrite data size nmemb =>
    if size * nmemb < 2 ^ 64 then (.wrote nmemb, m.write data) else (.wrote 0, m)
  | .fflush => (.status true, m.goto m.tell.toNat)
  | .fseek offset whence =>
    let target := whence.base m.bytes m.tell + offset
    if target < 0 then (.status false, m) else (.status true, m.goto target.toNat)

/-- The calls in order. -/
def Plain.run : List Op → Plain → List Res × Plain
  | [], m => ([], m)
  | op :: ops, m =>
    let (r, m) := m.exec op
    let (rs, m) := Plain.run ops m
    (r :: rs, m)

/-! ## Input and output in turn -/

/-- What the last calls were: `free` is behind an `fseek`, behind an `fflush` of output, and
behind input that has hit the end of the file. -/
inductive Mode where
  | free
  | input
  | output
  deriving DecidableEq

/-- The calls that read. -/
def Op.isInput : Op → Bool
  | .fgetc | .fread _ _ | .fgets _ | .ungetc _ => true
  | _ => false

/-- The call asks for more than there is. -/
def hitsEof (op : Op) (m : Plain) : Bool :=
  match op with
  | .fgetc => m.next.isEmpty
  | .fread size nmemb => decide (m.next.length < wanted size nmemb)
  | .fgets size => decide (m.next.length < (size - 1).toNat) && !m.next.contains newline
  | _ => false

/-- `fseek` and `fflush` may come at any time; output does not follow input, nor input output. -/
def Mode.Allows (mode : Mode) : Op → Prop
  | .fgetc | .fread _ _ | .fgets _ | .ungetc _ => mode ≠ .output
  | .fputc _ | .fwrite _ _ _ => mode ≠ .input
  | .fflush | .fseek _ _ => True

/-- The mode behind a call that finds `m`. -/
def Mode.after (mode : Mode) (op : Op) (m : Plain) : Mode :=
  match op with
  | .fgetc | .fread _ _ | .fgets _ => if hitsEof op m then .free else .input
  | .ungetc _ => .input
  | .fputc _ | .fwrite _ _ _ => .output
  | .fflush => if mode = .output then .free else mode
  | .fseek _ _ => .free

/-- The calls keep the turns of input and output, from a mode on; their arrays exist. -/
def Lawful : Mode → List Op → Plain → Prop
  | _, [], _ => True
  | mode, op :: ops, m =>
    mode.Allows op ∧ op.Valid ∧ Lawful (mode.after op m) ops (m.exec op).2

/-- The values returned by the input calls are the same. -/
def SameInput : List Op → List Res → List Res → Prop
  | [], [], [] => True
  | op :: ops, r :: rs, r' :: rs' => (op.isInput → r = r') ∧ SameInput ops rs rs'
  | _, _, _ => False

/-! ## The steps that go well -/

/-- What `fread` finds in the buffer, or reads into it. -/
def chunk (f : File) (s : Regular) : Nat :=
  if f.bm < f.bs then f.bs - f.bm else min f.buflen (s.bytes.length - s.off)

/-- What a call must find for the stream to do as the unbuffered model does. -/
def Safe (f : File) (s : Regular) : Op → Prop
  | .fread size nmemb => wanted size nmemb = 0 ∨ (f.ungotten ∧ wanted size nmemb = 1) ∨
      (f.bufinput = false → chunk f s ≤ wanted size nmemb) ∧
      (f.ungotten → chunk f s < wanted size nmemb) ∧
      (f.bm = f.bs → 0 < f.bs → s.off < s.bytes.length)
  | .ungetc c => 0 ≤ c → c ≤ 255 → f.ungotten = false
  | .fflush => f.ungotten → f.bm < f.bs ∧ f.bs - f.bm < s.off
  | .fseek offset whence => f.ungotten →
      0 ≤ whence.base s.bytes (s.off - (f.bs - f.bm) - 1) + offset ∧
      (whence = .cur → f.bm < f.bs ∧ f.bs - f.bm < s.off)
  | _ => True

/-- All steps of a run are safe. -/
def AllSafe : List Op → File → Regular → Prop
  | [], _, _ => True
  | op :: ops, f, s =>
    Safe f s op ∧ AllSafe ops (exec regular op f s).2.1 (exec regular op f s).2.2

/-- A stream as `fopen` makes it for update. -/
structure Opened (f : File) : Prop where
  canread : f.canread = true
  canwrite : f.canwrite = true
  bufinput : f.bufinput = true
  eof : f.eof = false
  fdpipe : f.fdpipe = false
  nobuf : f.nobuf = false
  bs : f.bs = 0
  bm : f.bm = 0
  ungotten : f.ungotten = false
  buflen_pos : 1 ≤ f.buflen
  buflen_lt : f.buflen < 2 ^ 31

end Dietlibc.Stdio
