import Dietlibc.Iconv.Turn

/-!
# The buffers of iconv

A call is run with nothing behind its two buffers, so that every access out of them is a fault.
`safe_iff` says that none is met exactly if no turn of the loop starts where a decoder reads too
far (`OverRead`) or the encoder of UTF-8 has no room for its first byte (`OverWrite`).
-/

namespace Dietlibc.Iconv

open Machine

variable {bytes p : List UInt8} {s s' : St} {src dst : Charset} {outLeft : Nat} {buf : Mem}

/-! ## The claim -/

/-- The counters are what is left of the two buffers. -/
structure Counted (bytes : List UInt8) (outLeft : Nat) (s : St) : Prop where
  inp : s.pos + s.left = bytes.length
  out : s.out.pos + s.out.left = outLeft

/-- A call for `bytes` and `outLeft` bytes of output stays in its buffers, and its counters stay
those of the buffers. -/
def Safe (src dst : Charset) (bytes : List UInt8) (outLeft : Nat) (buf : Mem) : Prop :=
  ∀ s, Meets (step bytes outLeft) (start src dst bytes.length outLeft buf) s →
    step bytes outLeft s ≠ .fault () ∧ Counted bytes outLeft s

/-- The decoder reads behind the bytes that are left. -/
inductive OverRead : Charset → List UInt8 → Prop where
  | utf8 (a : UInt8) (p : List UInt8) (ha : 0x80 ≤ a) (ha' : a < 0xfe)
      (hp : ∀ b ∈ p, isCont b = true) : OverRead .utf8 (a :: p)
  | utf16le (a : UInt8) : OverRead .utf16le [a]
  | utf16 (p : List UInt8) (hp : p.length < 2) : OverRead .utf16 (0xff :: 0xfe :: p)

/-- A character is decoded, and there is no room for the byte that is stored before the test. -/
def OverWrite (bytes : List UInt8) (s : St) : Prop :=
  s.out.dst = .utf8 ∧ s.out.left = 0 ∧
    ∃ v i src bom, decode s.src (bytes.drop s.pos) s.left = .char v i src bom ∧ ¬ Barred v

/-! ## Reads -/

theorem decodeUtf8_fault_iff (a : UInt8) (p : List UInt8) :
    decodeUtf8 a p (p.length + 1) = .fault ↔
      0x80 ≤ a ∧ a < 0xfe ∧ ∀ b ∈ p, isCont b = true := by
  unfold decodeUtf8
  split
  · rename_i ha
    exact iff_of_false nofun fun h => absurd ha (UInt8.not_lt.mpr h.1)
  split
  · rename_i ha
    exact iff_of_false nofun fun h => absurd h.2.1 (UInt8.not_lt.mpr ha)
  rename_i ha ha'
  rw [and_iff_right (UInt8.not_lt.mp ha), and_iff_right (UInt8.not_le.mp ha')]
  rcases cont_split p with hp | ⟨cs, x, t, rfl, hcs, hx⟩
  · rw [utf8Cont_fault hp (by omega)]
    exact iff_of_true rfl hp
  · rw [utf8Cont_char hcs hx (by simp only [List.length_append, List.length_cons]; omega)]
    refine iff_of_false ?_ fun h => ?_
    · dsimp only
      split <;> exact nofun
    · rw [h x (List.mem_append_right _ List.mem_cons_self)] at hx
      cases hx

/-- Only the decoder of UTF-16LE takes two bytes without asking. -/
theorem decodeUtf16_fault_iff (be : Bool) (p : List UInt8) (bom : Nat) :
    decodeUtf16 be p p.length bom = .fault ↔ be = false ∧ p.length < 2 := by
  unfold decodeUtf16
  dsimp only
  split
  · rename_i h
    exact iff_of_false nofun fun hh => by rw [hh.1] at h; cases h.1
  rename_i hshort
  split
  · rename_i a b q
    refine iff_of_false ?_ fun hh => by simp only [List.length_cons] at hh; omega
    split
    · split
      · exact nofun
      split
      · exact nofun
      · rename_i hlen
        split
        · split <;> exact nofun
        · rename_i hq
          rcases q with - | ⟨c, - | ⟨d, q⟩⟩
          · simp at hlen
          · simp at hlen
          · exact absurd rfl (hq c d q)
    · exact nofun
  · rename_i hp
    have hlen : p.length < 2 := by
      rcases p with - | ⟨a, - | ⟨b, p⟩⟩
      · simp
      · simp
      · exact absurd rfl (hp a b p)
    refine iff_of_true rfl ⟨?_, hlen⟩
    by_contra hbe
    exact hshort ⟨by simpa using hbe, hlen⟩

/-- **The decoders that read too far**, with all that is left of the buffer known. -/
theorem decode_fault_iff (src : Charset) (hp : p ≠ []) :
    decode src p p.length = .fault ↔ OverRead src p := by
  obtain ⟨a, p, rfl⟩ := List.exists_cons_of_ne_nil hp
  unfold decode
  cases src with
  | iso88591 => exact iff_of_false nofun nofun
  | utf8 =>
    dsimp only
    rw [List.length_cons, decodeUtf8_fault_iff]
    exact ⟨fun ⟨h, h', h''⟩ => .utf8 a p h h' h'', fun h => by cases h; exact ⟨‹_›, ‹_›, ‹_›⟩⟩
  | ucs2 =>
    refine iff_of_false ?_ nofun
    dsimp only
    split
    · exact nofun
    · rename_i hlen
      rcases p with - | ⟨b, p⟩
      · simp at hlen
      · exact nofun
  | ucs4 =>
    refine iff_of_false ?_ nofun
    dsimp only
    split
    · exact nofun
    · rename_i hlen
      rcases p with - | ⟨b, - | ⟨c, - | ⟨d, p⟩⟩⟩
      · simp at hlen
      · simp at hlen
      · simp at hlen
      · exact nofun
  | utf16be =>
    dsimp only
    rw [decodeUtf16_fault_iff]
    exact iff_of_false (fun h => by cases h.1) nofun
  | utf16le =>
    dsimp only
    rw [decodeUtf16_fault_iff]
    constructor
    · rintro ⟨-, h⟩
      rw [List.length_cons] at h
      rw [List.eq_nil_of_length_eq_zero (by omega : p.length = 0)]
      exact .utf16le a
    · intro h
      cases h
      exact ⟨rfl, Nat.one_lt_two⟩
  | utf16 =>
    rcases p with - | ⟨b, p⟩
    · exact iff_of_false nofun nofun
    · dsimp only
      rw [if_neg (by simp only [List.length_cons]; omega)]
      have hlen : (a :: b :: p).length - 2 = p.length := by
        simp only [List.length_cons]
        omega
      rw [hlen]
      split
      · rename_i hmark
        obtain ⟨rfl, rfl⟩ := hmark
        rw [decodeUtf16_fault_iff, and_iff_right rfl]
        exact ⟨.utf16 p, fun h => by cases h; assumption⟩
      · rename_i hmark
        have hno : ¬ OverRead .utf16 (a :: b :: p) := fun h => by
          cases h
          exact hmark ⟨rfl, rfl⟩
        split
        · rw [decodeUtf16_fault_iff]
          exact iff_of_false (fun h => by cases h.1) hno
        · exact iff_of_false nofun hno

/-! ## Runs -/

theorem Counted.length_drop (h : Counted bytes outLeft s) :
    (bytes.drop s.pos).length = s.left := by
  have := h.inp
  rw [List.length_drop]
  omega

/-- A turn of the loop keeps the counters. -/
theorem counted_step (h : Counted bytes outLeft s) (hstep : step bytes outLeft s = .again s') :
    Counted bytes outLeft s' := by
  have hend := step_end bytes (Nat.le_of_eq h.out)
  rw [hstep] at hend
  cases hend with
  | char o hleft hdec hv ho =>
    have hwithin := decode_within s.src (bytes.drop s.pos) s.left
    rw [hdec] at hwithin
    have hin := h.inp
    have hout := h.out
    have hpos := ho.pos
    have hoL := ho.left
    obtain ⟨hi, hle, hbom, -⟩ := hwithin
    rw [h.length_drop] at hle
    refine ⟨?_, ?_⟩
    · simp only [sub]
      rw [if_pos (by omega)]
      omega
    · dsimp only
      omega

theorem counted_start : Counted bytes outLeft (start src dst bytes.length outLeft buf) :=
  ⟨Nat.zero_add _, Nat.zero_add _⟩

/-- **The call stays in its buffers** exactly if no turn reads or writes too far. -/
theorem safe_iff (src dst : Charset) (bytes : List UInt8) (outLeft : Nat) (buf : Mem) :
    Safe src dst bytes outLeft buf ↔
      ∀ s, Meets (step bytes outLeft) (start src dst bytes.length outLeft buf) s → s.left ≠ 0 →
        ¬ OverRead s.src (bytes.drop s.pos) ∧ ¬ OverWrite bytes s := by
  constructor
  · intro h s hs hleft
    obtain ⟨hfault, hcount⟩ := h s hs
    have hlen := hcount.length_drop
    have hne : bytes.drop s.pos ≠ [] := by
      intro hnil
      rw [hnil] at hlen
      exact hleft hlen.symm
    refine ⟨fun hread => hfault ?_, fun hwrite => hfault ?_⟩
    · have hdec := (decode_fault_iff s.src hne).mpr hread
      rw [hlen] at hdec
      unfold step
      rw [if_neg hleft, hdec]
    · obtain ⟨hdst, hout, v, i, src', bom, hdec, hv⟩ := hwrite
      have hpos := hcount.out
      have henc : encode outLeft s.out v = .fault := by
        unfold encode encodeUtf8
        rw [hdst]
        exact if_neg (by omega)
      unfold step
      rw [if_neg hleft, hdec]
      dsimp only
      unfold Barred at hv
      rw [if_neg hv, henc]
  · intro h s hs
    have hcount := hs.invariant (fun _ _ => counted_step) counted_start
    refine ⟨fun hfault => ?_, hcount⟩
    have hlen := hcount.length_drop
    have hend := step_end bytes (Nat.le_of_eq hcount.out)
    rw [hfault] at hend
    cases hend with
    | read hleft hdec =>
      have hne : bytes.drop s.pos ≠ [] := by
        intro hnil
        rw [hnil] at hlen
        exact hleft hlen.symm
      rw [← hlen] at hdec
      exact (h s hs hleft).1 ((decode_fault_iff s.src hne).mp hdec)
    | write hleft hdec hv hdst hout _ =>
      exact (h s hs hleft).2 ⟨hdst, hout, _, _, _, _, hdec, hv⟩

/-- One byte in UTF-16LE: the second one is read all the same, and if there is one the counter of
the input wraps. -/
theorem utf16le_reads_behind :
    ¬ Safe .utf16le .utf8 [0x61] 8 (fun _ => 0) ∧
      (after (step [0x61, 0x62] 8) 1 (start .utf16le .utf8 1 8 fun _ => 0)).map St.left =
        some (2 ^ 64 - 1) :=
  ⟨fun h => (h _ (.refl _)).1 rfl, by decide⟩

end Dietlibc.Iconv
