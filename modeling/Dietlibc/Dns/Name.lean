import Dietlibc.Base.CInt

/-!
# Domain names in messages

`__dns_decodename`, `dn_expand` and `dn_skipname`. A message is the list of its bytes, so that
`behindpacket` is its length, and a position in it is an index. Reading behind the message and
writing behind the buffer are faults.
-/

namespace Dietlibc.Dns

/-- A message. -/
abbrev Packet := List UInt8

inductive Fault where
  | read
  | write
  deriving DecidableEq

/-! ## `dnscruft.c` -/

/-- The variables of `__dns_decodename`; `out` is what `dest` has moved over. -/
structure Cursor where
  tmp : Nat
  offset : Nat
  out : List UInt8
  after : Nat
  ok : Bool
  deriving DecidableEq

/-- Where a turn of the loop leads: `stop` is its regular end. -/
inductive Turn where
  | again (c : Cursor)
  | stop
  | minusOne
  | fault
  deriving DecidableEq

/-- `((unsigned int)(*tmp&0x3f)<<8)|*(tmp+1)`. -/
def pointerOfs (hi lo : UInt8) : Nat := (hi &&& 0x3f).toNat * 256 + lo.toNat

/-- The cursor behind a pointer to `ofs`. -/
def Cursor.follow (c : Cursor) (ofs : Nat) : Cursor :=
  { c with
    tmp := ofs
    offset := ofs
    after := if c.after < c.tmp + 2 then c.tmp + 2 else c.after
    ok := false }

/-- A compression pointer whose first byte is `b`. -/
def pointerTurn (p : Packet) (b : UInt8) (c : Cursor) : Turn :=
  match p[c.tmp + 1]? with
  | none => .fault
  | some lo => if c.offset ≤ pointerOfs b lo then .minusOne else .again (c.follow (pointerOfs b lo))

/-- The cursor behind a label of `n` bytes, which was copied with a dot. -/
def Cursor.copy (c : Cursor) (p : Packet) (n : Nat) : Cursor :=
  let tmp := c.tmp + n + 1
  { c with
    tmp
    out := c.out ++ (p.drop (c.tmp + 1)).take n ++ [46]
    ok := true
    after := if c.after < tmp then if p[tmp]? = some 0 then tmp + 1 else tmp else c.after }

/-- A label of `n` bytes. -/
def labelTurn (p : Packet) (maxlen n : Nat) (c : Cursor) : Turn :=
  if maxlen < c.out.length + n + 1 then .minusOne
  else if p.length ≤ c.tmp + n + 1 then .minusOne
  else .again (c.copy p n)

/-- `*tmp` and the body of the loop. -/
def turn (p : Packet) (maxlen : Nat) (c : Cursor) : Turn :=
  match p[c.tmp]? with
  | none => .fault
  | some b =>
    if b = 0 then .stop
    else if p.length ≤ c.tmp then .minusOne
    else if b >>> 6 = 3 then pointerTurn p b c
    else if b >>> 6 = 0 then labelTurn p maxlen b.toNat c
    else .minusOne

theorem lt_length {p : Packet} {i : Nat} {b : UInt8} (h : p[i]? = some b) : i < p.length :=
  (List.getElem?_eq_some_iff.mp h).1

theorem ne_zero_of_pointer {b : UInt8} (h : b >>> 6 = 3) : b ≠ 0 := by
  rintro rfl
  exact absurd h (by decide)

section

variable {p : Packet} {maxlen : Nat} {c c' : Cursor} {b : UInt8}

theorem turn_zero (h : p[c.tmp]? = some 0) : turn p maxlen c = .stop := by
  unfold turn
  rw [h]
  rfl

theorem turn_pointer (hb : p[c.tmp]? = some b) (h3 : b >>> 6 = 3) :
    turn p maxlen c = pointerTurn p b c := by
  unfold turn
  rw [hb]
  dsimp only
  rw [if_neg (ne_zero_of_pointer h3), if_neg (Nat.not_le_of_lt (lt_length hb)), if_pos h3]

theorem turn_label (hb : p[c.tmp]? = some b) (h0 : b ≠ 0) (h6 : b >>> 6 = 0) :
    turn p maxlen c = labelTurn p maxlen b.toNat c := by
  have h3 : b >>> 6 ≠ 3 := by
    rw [h6]
    decide
  unfold turn
  rw [hb]
  dsimp only
  rw [if_neg h0, if_neg (Nat.not_le_of_lt (lt_length hb)), if_neg h3, if_pos h6]

/-- The kinds of bytes a turn can find. -/
theorem turn_cases (p : Packet) (maxlen : Nat) (c : Cursor) (hc : c.tmp < p.length) :
    (p[c.tmp]? = some 0) ∨
    (∃ b, p[c.tmp]? = some b ∧ b >>> 6 = 3) ∨
    (∃ b, p[c.tmp]? = some b ∧ b ≠ 0 ∧ b >>> 6 = 0) ∨
    (∃ b, p[c.tmp]? = some b ∧ b ≠ 0 ∧ b >>> 6 ≠ 3 ∧ turn p maxlen c = .minusOne) := by
  have hb := List.getElem?_eq_getElem hc
  generalize p[c.tmp] = b at hb
  by_cases h0 : b = 0
  · exact .inl (h0 ▸ hb)
  · by_cases h3 : b >>> 6 = 3
    · exact .inr (.inl ⟨b, hb, h3⟩)
    · by_cases h6 : b >>> 6 = 0
      · exact .inr (.inr (.inl ⟨b, hb, h0, h6⟩))
      · refine .inr (.inr (.inr ⟨b, hb, h0, h3, ?_⟩))
        unfold turn
        rw [hb]
        dsimp only
        rw [if_neg h0, if_neg (Nat.not_le_of_lt hc), if_neg h3, if_neg h6]

/-- What a turn that goes on has found. -/
theorem turn_again (h : turn p maxlen c = .again c') :
    (∃ b lo, p[c.tmp]? = some b ∧ b >>> 6 = 3 ∧ p[c.tmp + 1]? = some lo ∧
      pointerOfs b lo < c.offset ∧ c' = c.follow (pointerOfs b lo)) ∨
    (∃ b, p[c.tmp]? = some b ∧ b ≠ 0 ∧ b >>> 6 = 0 ∧ c.out.length + b.toNat + 1 ≤ maxlen ∧
      c.tmp + b.toNat + 1 < p.length ∧ c' = c.copy p b.toNat) := by
  by_cases hc : c.tmp < p.length
  · rcases turn_cases p maxlen c hc with hb | ⟨b, hb, h3⟩ | ⟨b, hb, h0, h6⟩ | ⟨b, -, -, -, ht⟩
    · rw [turn_zero hb] at h
      cases h
    · left
      rw [turn_pointer hb h3, pointerTurn] at h
      split at h
      · cases h
      · rename_i lo hlo
        split at h
        · cases h
        · exact ⟨b, lo, hb, h3, hlo, by omega, (Turn.again.inj h).symm⟩
    · right
      rw [turn_label hb h0 h6, labelTurn] at h
      split at h
      · cases h
      · split at h
        · cases h
        · exact ⟨b, hb, h0, h6, by omega, by omega, (Turn.again.inj h).symm⟩
    · rw [ht] at h
      cases h
  · unfold turn at h
    rw [List.getElem?_eq_none (by omega)] at h
    cases h

theorem length_copy {n : Nat} (h : c.tmp + n + 1 < p.length) :
    (c.copy p n).out.length = c.out.length + n + 1 := by
  have hl : ((p.drop (c.tmp + 1)).take n).length = n := by
    rw [List.length_take, List.length_drop]
    omega
  simp only [Cursor.copy, List.length_append, hl, List.length_singleton]

/-- A pointer lowers `offset`, a label uses up room in `dest`. -/
theorem turn_decreases (h : turn p maxlen c = .again c') :
    c'.offset < c.offset ∨ c'.offset = c.offset ∧ c.out.length < c'.out.length ∧
      c'.out.length ≤ maxlen := by
  rcases turn_again h with ⟨b, lo, -, -, -, hofs, rfl⟩ | ⟨b, -, -, -, hroom, hin, rfl⟩
  · exact .inl hofs
  · rw [length_copy hin]
    exact .inr ⟨rfl, by omega, by omega⟩

end

/-- `if (ok) --dest; *dest=0; return after-packet;` -/
def finish (maxlen : Nat) (c : Cursor) : Except Fault (Int × List UInt8) :=
  let dest := if c.ok then c.out.dropLast else c.out
  if dest.length < maxlen then .ok (CInt.conv 32 c.after, dest ++ [0]) else .error .write

/-- The loop. -/
def decodeLoop (p : Packet) (maxlen : Nat) (c : Cursor) : Except Fault (Int × List UInt8) :=
  match h : turn p maxlen c with
  | .again c' => decodeLoop p maxlen c'
  | .stop => finish maxlen c
  | .minusOne => .ok (-1, c.out)
  | .fault => .error .read
termination_by (c.offset, maxlen - c.out.length)
decreasing_by
  rcases turn_decreases h with h | ⟨h1, h2, h3⟩
  · exact .left _ _ h
  · rw [h1]
    exact .right _ (by omega)

/-- `__dns_decodename`: the value returned and the bytes written to `dest`. -/
def decodename (p : Packet) (offset maxlen : Nat) : Except Fault (Int × List UInt8) :=
  let c : Cursor := ⟨offset, offset, [], offset, false⟩
  if maxlen = 0 then finish maxlen c else decodeLoop p maxlen c

/-! ## `dn_expand.c`, `dn_skipname.c` -/

/-- `dn_expand` of the name at `compDn`. -/
def dnExpand (msg : Packet) (compDn length : Nat) : Except Fault (Int × List UInt8) :=
  (decodename msg compDn length).map fun (r, dest) => (CInt.conv 32 (r - compDn), dest)

/-- `dn_skipname` from `cur` on, where the name started at `orig`. -/
def skipLoop (m : Packet) (orig cur : Nat) : Int :=
  match h : m[cur]? with
  | none => -1
  | some b =>
    if b &&& 0xc = 0xc then if cur + 1 < m.length then CInt.conv 32 (cur - orig + 2) else -1
    else if b = 0 then CInt.conv 32 (cur - orig + 1)
    else if cur + b.toNat + 1 < m.length then skipLoop m orig (cur + b.toNat + 1) else -1
termination_by m.length - cur
decreasing_by
  have := (List.getElem?_eq_some_iff.mp h).1
  omega

/-- `dn_skipname`. -/
def dnSkipname (m : Packet) (cur : Nat) : Int := skipLoop m cur cur

end Dietlibc.Dns
