import Dietlibc.Scanf.Vscanf

/-!
# What the directives of a format match

The directives on a plain input, without a stream and a lookahead: each matches a prefix of what is left
of the input, and the next one goes on behind it. `scan` carries them out up to the first one that fails
and says what is then left, with the white space, signs and prefix of a failed number skipped.
-/

namespace Dietlibc.Scanf

open Shell (isspace isdigit dash lbracket)

/-- Why the directives end: the format is at its end or a directive does not match; a number has no
digits; there is a single `%` at the end of the format; a floating point number; or a character class
that does not end or has a byte of 0x80 or more. -/
inductive Why where
  | ended
  | number
  | percent
  | float
  | fault
  deriving DecidableEq

/-- What is left of the input, how many conversions were stored, and why it ended. -/
structure Outcome where
  left : List UInt8
  n : Nat
  why : Why

/-- What a directive leads to: the format, what is left of the input, and the conversions that it
stored; or the end. -/
inductive Step where
  | go (format left : List UInt8) (k : Nat)
  | stop (left : List UInt8) (why : Why)

/-- What is left behind the longest prefix with `p`, of at most `width` characters. A negative width is
no bound. -/
def behind (p : UInt8 → Bool) (width : Int) (l : List UInt8) : List UInt8 :=
  l.drop ((if width < 0 then l else l.take width.toNat).takeWhile p).length

/-- The input behind one character. -/
def pass (ch : UInt8) (l : List UInt8) : List UInt8 := if l.head? = some ch then l.tail else l

/-- The base and the digits behind a zero, which an `x` may follow. -/
def hexPrefix (div : Nat) (l : List UInt8) : Nat × List UInt8 :=
  if l.tail.head?.any fun c => c ||| 32 = charx then (16, l.tail.tail) else (div, l.tail)

/-- The base and the digits, behind a prefix. -/
def basePrefix (f : Flags) (div : Nat) (l : List UInt8) : Nat × List UInt8 :=
  if f.flagWidth then (div, l)
  else if div = 16 ∧ l.head? = some zero then hexPrefix 16 l
  else if div = 0 then if l.head? = some zero then hexPrefix 8 l else (10, l)
  else (div, l)

/-- An integer. `c` characters are in front of `l`; the code counts them in 32 bits. -/
def matchInt (ch : UInt8) (f : Flags) (format l : List UInt8) (c : Nat) : Step :=
  let number := pass plus (pass dash (l.dropWhile isspace))
  let (div, digits) := basePrefix f (divOf ch) number
  let left := behind (fun c => digit c < div) f.width digits
  let c := c + (l.length - number.length) + 1
  let c' := c + (number.length - left.length)
  if number = [] ∨ c % 2 ^ 32 = c' % 2 ^ 32 then .stop left .number
  else .go format left (if f.discard = false ∧ c % 2 ^ 32 < c' % 2 ^ 32 then 1 else 0)

/-- The conversion `ch`. -/
def matchConv (ch : UInt8) (f : Flags) (format l : List UInt8) (c : Nat) : Step :=
  let once := if f.discard then 0 else 1
  if ch = percent then if l.head? = some percent then .go format l.tail 0 else .stop l .ended
  else if ch ∈ [charp, charX, charx, chard, charo, charu, chari] then matchInt ch f format l c
  else if ch ∈ [chare, charE, charf, charg] then .stop l .float
  else if ch = charc then
    .go format (behind (fun _ => true) (if f.flagWidth then f.width else 1) l) once
  else if ch = chars then
    let l := l.dropWhile isspace
    .go format (behind (fun c => !isspace c && !decide (c = 0)) f.width l) (if l = [] then 0 else once)
  else if ch = charn then .go format l 0
  else if ch = lbracket then
    match scanSet format with
    | .error _ => .stop l .fault
    | .ok (set, flagNot, format) =>
      let left := behind (fun c => (c ∈ set ^^ flagNot) && !decide (c = 0)) f.width l
      .go format left (if left.length = l.length then 0 else once)
  else .stop l .ended

/-- The flags and the width of a conversion, and the format from the conversion on. -/
def flags (f : Flags) (format : List UInt8) : Flags × List UInt8 :=
  match format with
  | [] => (f, [])
  | ch :: format =>
    match h : flag ch f format with
    | some (f', format') => flags f' format'
    | none => (f, ch :: format)
termination_by format.length
decreasing_by
  have := flag_le h
  simp only [List.length_cons]
  omega

/-- A conversion, behind `%`. At the end of the input there is only `n`. -/
def matchPercent (format l : List UInt8) (c : Nat) : Step :=
  if l = [] ∧ format.head? ≠ some charn then .stop [] .ended
  else
    match flags noFlags format with
    | (_, []) => .stop l .percent
    | (f, ch :: format) => matchConv ch f format l c

theorem flags_le (f : Flags) (format : List UInt8) :
    (flags f format).2.length ≤ format.length := by
  fun_induction flags f format with
  | case1 => exact le_rfl
  | case2 f ch format f' format' h ih =>
    have := flag_le h
    simp only [List.length_cons]
    omega
  | case3 => exact le_rfl

theorem matchConv_le {ch : UInt8} {f : Flags} {format format' l left : List UInt8} {c k : Nat}
    (h : matchConv ch f format l c = .go format' left k) : format'.length ≤ format.length := by
  unfold matchConv at h
  simp only at h
  split at h
  · split at h
    · cases h
      exact le_rfl
    · cases h
  split at h
  · unfold matchInt at h
    simp only at h
    split at h
    · cases h
    · cases h
      exact le_rfl
  split at h
  · cases h
  split at h
  · cases h
    exact le_rfl
  split at h
  · cases h
    exact le_rfl
  split at h
  · cases h
    exact le_rfl
  split at h
  · split at h
    · cases h
    · next hset =>
      cases h
      exact scanSet_le hset
  · cases h

theorem matchPercent_le {format format' l left : List UInt8} {c k : Nat}
    (h : matchPercent format l c = .go format' left k) : format'.length ≤ format.length := by
  unfold matchPercent at h
  split at h
  · cases h
  · have hle := flags_le noFlags format
    split at h
    · cases h
    · next hflags =>
      rw [hflags] at hle
      have := matchConv_le h
      simp only [List.length_cons] at hle
      omega

/-- The directives of the format on `l`, in front of which `c` characters were matched and `n`
conversions stored. -/
def scan (format l : List UInt8) (c n : Nat) : Outcome :=
  match format with
  | [] => ⟨l, n, .ended⟩
  | ch :: format =>
    if isspace ch then
      let left := l.dropWhile isspace
      scan (format.dropWhile isspace) left (c + (l.length - left.length)) n
    else if ch = percent then
      match h : matchPercent format l c with
      | .stop left why => ⟨left, n, why⟩
      | .go format' left k => scan format' left (c + (l.length - left.length)) (n + k)
    -- a byte of 0x80 or more in the format matches nothing
    else if l.head? = some ch ∧ ch < 128 then scan format l.tail (c + 1) n
    else ⟨l, n, .ended⟩
termination_by format.length
decreasing_by
  · have := (List.dropWhile_sublist isspace (l := format)).length_le
    simp only [List.length_cons]
    omega
  · have := matchPercent_le h
    simp only [List.length_cons]
    omega
  · simp

end Dietlibc.Scanf
