import Dietlibc.Base.CInt

/-!
# Multibyte characters

`wcrtomb` and `mbrtowc`. A `wchar_t` is an `int`, a byte string is a `List UInt8` whose length
is the `n` of the call. `mbrtowc` is cut at the body of its loop (`turn`): a byte leaves the
sequence unfinished, completes a character or is out of place.
-/

namespace Dietlibc.Wchar

/-- `lc_ctype`. -/
inductive Ctype where
  | bit8
  | utf8
  deriving DecidableEq

/-- `mbstate_t`. -/
@[ext]
structure MbState where
  count : Int
  sofar : Int
  deriving DecidableEq

/-- No sequence is open. -/
def MbState.Initial (ps : MbState) : Prop := ps.count = 0

/-- `(size_t)-1`: an illegal sequence. -/
def illegal : Nat := 2 ^ 64 - 1

/-- `(size_t)-2`: in the C standard, an incomplete sequence. -/
def incomplete : Nat := 2 ^ 64 - 2

/-! ## `wcrtomb.c` -/

/-- `for (k=1; k<j; ++k)`: the bytes behind the first. -/
def wcTail (wc : Int) : Nat → Nat → List UInt8
  | 0, _ => []
  | k + 1, bits =>
    let bits := bits - 6
    UInt8.ofInt (0x80 + wc / 2 ^ bits % 64) :: wcTail wc k bits

/-- The first byte and what follows it. -/
def wcBytes (wc : Int) (bits : Nat) (c : UInt8) (j : Nat) : List UInt8 :=
  (c ||| UInt8.ofInt (wc / 2 ^ bits)) :: wcTail wc (j - 1) bits

/-- `wcrtomb` with `s` not null: the value returned and the bytes stored. It does not look at the
state. -/
def wcrtomb (ct : Ctype) (wc : Int) : Nat × List UInt8 :=
  match ct with
  | .bit8 => (1, [UInt8.ofInt wc])
  | .utf8 =>
    if 0x04000000 ≤ wc then (6, wcBytes wc 30 0xFC 6)
    else if 0x00200000 ≤ wc then (5, wcBytes wc 24 0xF8 5)
    else if 0x00010000 ≤ wc then (4, wcBytes wc 18 0xF0 4)
    else if 0x00000800 ≤ wc then (3, wcBytes wc 12 0xE0 3)
    else if 0x00000080 ≤ wc then (2, wcBytes wc 6 0xC0 2)
    else (1, [UInt8.ofInt wc])

/-! ## `mbrtowc.c` -/

/-- `while (x&0x80)`: eight turns clear an `unsigned char`. -/
def leadLoop : Nat → UInt8 → Nat → UInt8 × Nat
  | 0, x, cnt => (x, cnt)
  | n + 1, x, cnt => if x &&& 0x80 ≠ 0 then leadLoop n (x <<< 1) (cnt + 1) else (x, cnt)

/-- Where a byte leads. -/
inductive Turn where
  | more (ps : MbState)
  | complete (ps : MbState)
  | kaputt (ps : MbState)

/-- The body of the loop, in UTF-8. -/
def turn (c : UInt8) (ps : MbState) : Turn :=
  if ps.count ≠ 0 then
    if c &&& 0xc0 ≠ 0x80 then .kaputt { ps with count := 0 }
    else
      let ps : MbState :=
        ⟨ps.count - 1, CInt.conv 32 (ps.sofar * 64 + (c &&& 0x3f).toNat)⟩
      if ps.count = 0 then .complete ps else .more ps
  else if c &&& 0x80 ≠ 0 then
    let (x, cnt) := leadLoop 8 (c <<< 1) 0
    if cnt = 0 ∨ 5 < cnt then .kaputt { ps with count := 0 }
    else .more ⟨cnt, x.toNat / 2 ^ (cnt + 1)⟩
  else .complete { ps with sofar := c.toNat }

/-- `for (i=0; i<n; ++i)`: the value returned, the character stored and the state left. -/
def mbrtowcLoop (ct : Ctype) : List UInt8 → Nat → MbState → Nat × Option Int × MbState
  | [], i, ps => (i, none, ps)
  | c :: s, i, ps =>
    match ct with
    | .bit8 => (if c = 0 then 0 else 1, some c.toNat, ps)
    | .utf8 =>
      match turn c ps with
      | .more ps => mbrtowcLoop ct s (i + 1) ps
      | .kaputt ps => (illegal, none, ps)
      | .complete ps =>
        if ps.sofar ≠ 0 then (i + 1, some ps.sofar, { ps with sofar := 0 })
        else (0, some ps.sofar, ⟨0, 0⟩)

/-- `mbrtowc` of the bytes `s`. -/
def mbrtowc (ct : Ctype) (s : List UInt8) (ps : MbState) : Nat × Option Int × MbState :=
  mbrtowcLoop ct s 0 ps

/-- `mbrtowc` with a null pointer for `s`. -/
def mbrtowcNull (ps : MbState) : Nat × MbState :=
  if ps.count ≠ 0 then (illegal, ps) else (0, ⟨0, 0⟩)

end Dietlibc.Wchar
