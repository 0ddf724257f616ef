import Dietlibc.Iconv.Turn

/-!
# The positions that iconv leaves

`Booked` says that the four positions of a call are those behind the characters it has converted.
The counters are kept turn by turn, but `*inbuf` and `*outbuf` are written at the end only, so that
`booked_iff` holds where no turn fails once something has been counted.
-/

namespace Dietlibc.Iconv

open Machine

variable {obj : List UInt8} {left cap outLeft bom obom k : Nat} {s s' : St} {src dst c d : Charset}
  {buf : Mem} {a : Answer} {w : List UInt8}

/-! ## The claim -/

/-- The first `k` bytes are characters, and `w` are their bytes in the other charset. `c` and `d`
are the charsets behind byte order marks. -/
inductive Converted (obj : List UInt8) (left : Nat) (src dst : Charset) :
    Charset → Charset → Nat → List UInt8 → Prop where
  | nil : Converted obj left src dst src dst 0 []
  | char {c d c' : Charset} {k v i bom : Nat} {w : List UInt8}
      (h : Converted obj left src dst c d k w) (hk : k < left)
      (hdec : decode c (obj.drop k) (left - k) = .char v i c' bom) (hv : ¬ Barred v)
      (hle : k + bom + i ≤ left) :
      Converted obj left src dst c' d.after (k + bom + i) (w ++ encoded d v)

/-- What the call for `left` bytes and `outLeft` bytes of output leaves behind. -/
structure Booked (src dst : Charset) (obj : List UInt8) (left cap outLeft : Nat) (buf : Mem)
    (a : Answer) : Prop where
  /-- the ends are those on entry -/
  inEnd : a.inbuf + a.inbytesleft = left
  outEnd : a.outbuf + a.outbytesleft = outLeft
  /-- the positions are those at the last turn of the loop -/
  last : ∃ s, Meets (step obj cap) (start src dst left outLeft buf) s ∧
    step obj cap s = .stop a ∧ a.inbuf = s.pos ∧ a.outbuf = s.out.pos
  /-- what is in front of them has been converted -/
  converted : ∃ c d, Converted obj left src dst c d a.inbuf (a.buf.load 0 a.outbuf)
  /-- what is converted of the rest goes on from there -/
  again : ∀ k w, (∃ c d, Converted (obj.drop a.inbuf) a.inbytesleft src dst c d k w) →
    ∃ c d, Converted obj left src dst c d (a.inbuf + k) (a.buf.load 0 a.outbuf ++ w)

/-! ## Runs -/

/-- A turn that fails stops the call, with the marks counted. -/
theorem Fails.step (h : Fails obj cap s bom obom) (hleft : s.left ≠ 0)
    (hcap : s.out.pos + s.out.left ≤ cap) :
    ∃ e left o, Iconv.step obj cap s = failed e left o ∧ left + bom = s.left ∧
      o.left + obom = s.out.left := by
  have hend := step_end obj hcap
  generalize hnext : Iconv.step obj cap s = next at hend
  cases hend with
  | done hz => exact absurd hz hleft
  | read _ hdec =>
    cases h with
    | decode hdec' => rw [hdec] at hdec'; cases hdec'
    | barred hdec' => rw [hdec] at hdec'; cases hdec'
    | bloat hdec' => rw [hdec] at hdec'; cases hdec'
  | write _ hdec hv hdst _ hpos =>
    cases h with
    | decode hdec' => rw [hdec] at hdec'; cases hdec'
    | barred hdec' hv' => rw [hdec] at hdec'; cases hdec'; exact absurd hv' hv
    | bloat _ _ _ hwrite => exact absurd (hwrite hdst) (by omega)
  | fails e bom' obom' left o _ h' hbom hobom =>
    refine ⟨e, left, o, rfl, ?_⟩
    cases h with
    | decode hdec =>
      cases h' with
      | decode hdec' => rw [hdec] at hdec'; cases hdec'; exact ⟨hbom, hobom⟩
      | barred hdec' => rw [hdec] at hdec'; cases hdec'
      | bloat hdec' => rw [hdec] at hdec'; cases hdec'
    | barred hdec hv =>
      cases h' with
      | decode hdec' => rw [hdec] at hdec'; cases hdec'
      | barred hdec' => rw [hdec] at hdec'; cases hdec'; exact ⟨hbom, hobom⟩
      | bloat hdec' hv' => rw [hdec] at hdec'; cases hdec'; exact absurd hv hv'
    | bloat hdec hv =>
      cases h' with
      | decode hdec' => rw [hdec] at hdec'; cases hdec'
      | barred hdec' hv' => rw [hdec] at hdec'; cases hdec'; exact absurd hv' hv
      | bloat hdec' => rw [hdec] at hdec'; cases hdec'; exact ⟨hbom, hobom⟩
  | char o _ hdec hv ho =>
    have hroom := ho.left
    cases h with
    | decode hdec' => rw [hdec] at hdec'; cases hdec'
    | barred hdec' hv' => rw [hdec] at hdec'; cases hdec'; exact absurd hv' hv
    | bloat hdec' _ hroom' => rw [hdec] at hdec'; cases hdec'; omega

theorem Fails.mark_le (h : Fails obj cap s bom obom) : bom ≤ 2 := by
  have hwithin := decode_within s.src (obj.drop s.pos) s.left
  cases h with
  | decode hdec => rw [hdec] at hwithin; exact hwithin.2
  | barred hdec => rw [hdec] at hwithin; exact hwithin.2.2.2
  | bloat hdec => rw [hdec] at hwithin; exact hwithin.2.2.2

/-- A state of the loop: its input is converted, or the counter of the input has wrapped. -/
structure Kept (src dst : Charset) (obj : List UInt8) (left outLeft : Nat) (s : St) : Prop where
  out : s.out.pos + s.out.left = outLeft
  pos : s.pos ≤ obj.length
  inp : s.pos + s.left = left ∧
      Converted obj left src dst s.src s.out.dst s.pos (s.out.buf.load 0 s.out.pos) ∨
    left < s.pos ∧ s.pos + s.left = left + 2 ^ 64

/-- Every turn keeps the positions. -/
theorem kept_step (hsize : obj.length + 2 < 2 ^ 64) (hcap : outLeft ≤ cap)
    (h : Kept src dst obj left outLeft s) (hstep : step obj cap s = .again s') :
    Kept src dst obj left outLeft s' := by
  have hend := step_end obj (h.out.trans_le hcap)
  rw [hstep] at hend
  cases hend with
  | char o hleft hdec hv ho =>
    rename_i v i bom src'
    have hwithin := decode_within s.src (obj.drop s.pos) s.left
    rw [hdec, Decoding.Within, List.length_drop] at hwithin
    obtain ⟨hi, hle, hbom, -⟩ := hwithin
    have hpos := h.pos
    have hout := h.out
    have hoPos := ho.pos
    have hoLeft := ho.left
    refine ⟨by dsimp only; omega, by dsimp only; omega, ?_⟩
    dsimp only
    rcases h.inp with ⟨hsum, hconv⟩ | ⟨hlt, hsum⟩
    · by_cases hwrap : i ≤ s.left - bom
      · left
        rw [sub, if_pos hwrap]
        refine ⟨by omega, ?_⟩
        have hk : left - s.pos = s.left := by omega
        rw [← hk] at hdec
        have hchar := hconv.char (by omega) hdec hv (by omega)
        rw [ho.dst, ho.pos, ho.buf]
        have hload := Mem.load_store_append (m := s.out.buf) (a := 0) (n := s.out.pos)
          (d := encoded s.out.dst v) rfl
        rw [Nat.zero_add] at hload
        rwa [hload]
      · right
        rw [sub, if_neg hwrap]
        omega
    · right
      have hwrap : i ≤ s.left - bom := by omega
      rw [sub, if_pos hwrap]
      omega

theorem kept_start :
    Kept src dst obj left outLeft (start src dst left outLeft buf) :=
  ⟨Nat.zero_add _, Nat.zero_le _, .inl ⟨Nat.zero_add _, .nil⟩⟩

/-- Nothing is left to convert. -/
theorem Converted.of_zero (h : Converted obj 0 src dst c d k w) : k = 0 ∧ w = [] := by
  cases h with
  | nil => exact ⟨rfl, rfl⟩
  | char _ hk => exact absurd hk (Nat.not_lt_zero _)

end Dietlibc.Iconv
