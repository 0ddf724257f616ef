import Dietlibc.Iconv.Utf8

/-!
# Round trips

`RoundTrips` is the way from UTF-8 through another charset and back, for a list of characters,
`KeepsUcs4` the conversion of UCS-4 to itself. `roundtrip_iff` says which characters and which
numbers come back.
-/

namespace Dietlibc.Iconv

open Machine

variable {obj p t behind : List UInt8} {left cap : Nat} {s : St} {src dst mid : Charset}
  {a : Answer} {v : Nat} {c : Char} {cs : List Char}

/-! ## The claim -/

/-- UTF-8 -/
def utf8Of (cs : List Char) : List UInt8 := cs.flatMap String.utf8EncodeChar

/-- The bytes of a number in UCS-4. -/
def ucs4Char (v : Nat) : List UInt8 :=
  [UInt8.ofNat (v / 2 ^ 24), UInt8.ofNat (v / 2 ^ 16), UInt8.ofNat (v / 2 ^ 8), UInt8.ofNat v]

def ucs4Of (vs : List Nat) : List UInt8 := vs.flatMap ucs4Char

/-- With enough room, and whatever stands behind the input, the call converts all of `bytes`, with
the result 0, and `w` is what it stores. -/
def Converts (src dst : Charset) (bytes w : List UInt8) : Prop :=
  ∀ behind cap outLeft buf, 6 * bytes.length + 4 ≤ outLeft → outLeft ≤ cap →
    ∃ a, Returns src dst (bytes ++ behind) bytes.length cap outLeft buf a ∧ a.ret = .ok 0 ∧
      a.inbytesleft = 0 ∧ a.buf.load 0 a.outbuf = w

/-- From UTF-8 to `mid` and back. -/
def RoundTrips (mid : Charset) (cs : List Char) : Prop :=
  ∃ w, Converts .utf8 mid (utf8Of cs) w ∧ Converts mid .utf8 w (utf8Of cs)

/-- The characters that the decoder of UTF-8 takes. -/
def Taken (c : Char) : Prop := c.toNat < 0x80 ∨ c.toNat = 0x7ff ∨ c.toNat = 0xffff

/-! ## Runs -/

/-- **Characters one by one**: each is decoded to its value where it stands, and stored. -/
theorem run_chars {α : Type} (inp : α → List UInt8) (val : α → Nat) (xs : List α)
    (hdst : dst.after = dst) (hne : ∀ x ∈ xs, inp x ≠ [])
    (hdec : ∀ x post, x :: post <:+ xs → decode src (inp x ++ (post.flatMap inp ++ behind))
      (inp x ++ post.flatMap inp).length = .char (val x) (inp x).length src 0)
    (hv : ∀ x ∈ xs, ¬ Barred (val x)) (hl : ∀ x ∈ xs, lossy dst (val x) = false)
    (h : At obj cap src (xs.flatMap inp) behind s) (hs : s.out.dst = dst)
    (hr : s.out.result = 0) :
    ∃ a, Stops (step obj cap) s a ∧ a.ret = .ok 0 ∧ a.inbytesleft = 0 ∧
      a.buf.load 0 a.outbuf =
        s.out.buf.load 0 s.out.pos ++ xs.flatMap fun x => encoded dst (val x) := by
  induction xs generalizing s with
  | nil =>
    have hstop : step obj cap s =
        .stop ⟨.ok s.out.result, s.pos, s.left, s.out.pos, s.out.left, s.out.buf⟩ :=
      if_pos h.left
    refine ⟨_, (stops_stop hstop).mpr rfl, by rw [hr], h.left, ?_⟩
    rw [List.flatMap_nil, List.append_nil]
  | cons x xs ih =>
    obtain ⟨s', hstep, h', hstored⟩ := h.char (hne x List.mem_cons_self)
      (hdec x xs (List.suffix_refl _)) (hv x List.mem_cons_self)
    have hdst' := hstored.dst
    have hr' := hstored.result
    rw [hs] at hdst' hr'
    rw [hl x List.mem_cons_self, if_neg Bool.false_ne_true, hr] at hr'
    obtain ⟨a, ha, hret, hin, hout⟩ := ih (fun y hy => hne y (List.mem_cons_of_mem x hy))
      (fun y post hy => hdec y post (hy.trans (List.suffix_cons x xs)))
      (fun y hy => hv y (List.mem_cons_of_mem x hy)) (fun y hy => hl y (List.mem_cons_of_mem x hy))
      h' (hdst'.trans hdst) hr'
    refine ⟨a, (stops_again hstep).mpr ha, hret, hin, ?_⟩
    have hload := Mem.load_store_append (m := s.out.buf) (a := 0) (n := s.out.pos)
      (d := encoded s.out.dst (val x)) rfl
    rw [Nat.zero_add, hs] at hload
    rw [hout, hstored.pos, hstored.buf, hs, hload, List.flatMap_cons, List.append_assoc]

/-- The same for a call. -/
theorem converts_chars {α : Type} (inp : α → List UInt8) (val : α → Nat) (xs : List α)
    (hdst : dst.after = dst) (hne : ∀ x ∈ xs, inp x ≠ [])
    (hdec : ∀ behind x post, x :: post <:+ xs →
      decode src (inp x ++ (post.flatMap inp ++ behind)) (inp x ++ post.flatMap inp).length =
        .char (val x) (inp x).length src 0)
    (hv : ∀ x ∈ xs, ¬ Barred (val x)) (hl : ∀ x ∈ xs, lossy dst (val x) = false) :
    Converts src dst (xs.flatMap inp) (xs.flatMap fun x => encoded dst (val x)) := by
  intro behind cap outLeft buf hroom hcap
  have hat := at_start src dst (xs.flatMap inp) behind buf hroom hcap
  exact run_chars inp val xs hdst hne (hdec behind) hv hl hat rfl rfl

/-! ## UTF-8 -/

/-- The lead bytes without their marks. -/
theorem maskLead_marks :
    (∀ k < 32, (maskLead (UInt8.ofNat (k + 0xc0)) leads).toNat = k ∧
      0x80 ≤ UInt8.ofNat (k + 0xc0) ∧ UInt8.ofNat (k + 0xc0) < 0xfe ∧
        isCont (UInt8.ofNat (k + 0xc0)) = false) ∧
    (∀ k < 16, (maskLead (UInt8.ofNat (k + 0xe0)) leads).toNat = k ∧
      0x80 ≤ UInt8.ofNat (k + 0xe0) ∧ UInt8.ofNat (k + 0xe0) < 0xfe ∧
        isCont (UInt8.ofNat (k + 0xe0)) = false) ∧
    ∀ k < 8, (maskLead (UInt8.ofNat (k + 0xf0)) leads).toNat = k ∧
      0x80 ≤ UInt8.ofNat (k + 0xf0) ∧ UInt8.ofNat (k + 0xf0) < 0xfe ∧
        isCont (UInt8.ofNat (k + 0xf0)) = false := by decide

/-- A continuation byte. -/
theorem cont_byte : ∀ k < 64, isCont (UInt8.ofNat (k + 0x80)) = true ∧
    (UInt8.ofNat (k + 0x80)).toNat % 64 = k := by decide

theorem ascii_byte : ∀ k < 128, isCont (UInt8.ofNat k) = false ∧ UInt8.ofNat k < 0x80 ∧
    (UInt8.ofNat k).toNat = k := by decide

/-- The bytes of a character that is not ASCII. -/
structure Multibyte (c : Char) (b : UInt8) (conts : List UInt8) : Prop where
  bytes : String.utf8EncodeChar c = b :: conts
  lead : 0x80 ≤ b ∧ b < 0xfe ∧ isCont b = false
  cont : ∀ x ∈ conts, isCont x = true
  value : contValue (maskLead b leads).toNat conts = c.toNat
  range : conts.length = 1 ∧ 0x80 ≤ c.toNat ∧ c.toNat ≤ 0x7ff ∨
    conts.length = 2 ∧ 0x800 ≤ c.toNat ∧ c.toNat ≤ 0xffff ∨
    conts.length = 3 ∧ 0x10000 ≤ c.toNat ∧ c.toNat < 0x110000

theorem char_scalar (c : Char) : c.toNat < 0xd800 ∨ 0xdfff < c.toNat ∧ c.toNat < 0x110000 :=
  c.valid

theorem contByte_spec (n : Nat) : isCont (UInt8.ofNat (n % 64 + 0x80)) = true ∧
    (UInt8.ofNat (n % 64 + 0x80)).toNat % 64 = n % 64 :=
  cont_byte (n % 64) (Nat.mod_lt n (by decide))

/-- The value that continuation bytes add to what is known. -/
theorem contValue_cons (v n : Nat) (p : List UInt8) :
    contValue v (UInt8.ofNat (n % 64 + 0x80) :: p) = contValue ((v * 64 + n % 64) % 2 ^ 32) p := by
  rw [contValue, List.foldl_cons, (contByte_spec n).2]
  rfl

theorem multibyte_two (h : 0x80 ≤ c.toNat ∧ c.toNat ≤ 0x7ff) : ∃ b conts, Multibyte c b conts := by
  obtain ⟨hm, hlo, hhi, hc⟩ := maskLead_marks.1 (c.toNat / 64 % 32) (Nat.mod_lt _ (by decide))
  refine ⟨_, [UInt8.ofNat (c.toNat % 64 + 0x80)], ?_, ⟨hlo, hhi, hc⟩, ?_, ?_, .inl ⟨rfl, h⟩⟩
  · unfold String.utf8EncodeChar
    exact (if_neg (by show ¬ c.toNat ≤ 0x7f; omega)).trans (if_pos h.2)
  · exact List.forall_mem_singleton.mpr (contByte_spec _).1
  · rw [hm, contValue_cons]
    show (_ : Nat) % _ = _
    omega

theorem multibyte_three (h : 0x800 ≤ c.toNat ∧ c.toNat ≤ 0xffff) :
    ∃ b conts, Multibyte c b conts := by
  obtain ⟨hm, hlo, hhi, hc⟩ := maskLead_marks.2.1 (c.toNat / 4096 % 16) (Nat.mod_lt _ (by decide))
  refine ⟨_, [UInt8.ofNat (c.toNat / 64 % 64 + 0x80), UInt8.ofNat (c.toNat % 64 + 0x80)], ?_,
    ⟨hlo, hhi, hc⟩, ?_, ?_, .inr (.inl ⟨rfl, h⟩)⟩
  · unfold String.utf8EncodeChar
    exact (if_neg (by show ¬ c.toNat ≤ 0x7f; omega)).trans
      ((if_neg (by show ¬ c.toNat ≤ 0x7ff; omega)).trans (if_pos h.2))
  · exact List.forall_mem_cons.mpr ⟨(contByte_spec _).1,
      List.forall_mem_singleton.mpr (contByte_spec _).1⟩
  · rw [hm, contValue_cons, contValue_cons]
    show (_ : Nat) % _ = _
    omega

theorem multibyte_four (h : 0x10000 ≤ c.toNat ∧ c.toNat < 0x110000) :
    ∃ b conts, Multibyte c b conts := by
  obtain ⟨hm, hlo, hhi, hc⟩ := maskLead_marks.2.2 (c.toNat / 262144 % 8) (Nat.mod_lt _ (by decide))
  refine ⟨_, [UInt8.ofNat (c.toNat / 4096 % 64 + 0x80), UInt8.ofNat (c.toNat / 64 % 64 + 0x80),
    UInt8.ofNat (c.toNat % 64 + 0x80)], ?_, ⟨hlo, hhi, hc⟩, ?_, ?_, .inr (.inr ⟨rfl, h⟩)⟩
  · unfold String.utf8EncodeChar
    exact (if_neg (by show ¬ c.toNat ≤ 0x7f; omega)).trans
      ((if_neg (by show ¬ c.toNat ≤ 0x7ff; omega)).trans
        (if_neg (by show ¬ c.toNat ≤ 0xffff; omega)))
  · exact List.forall_mem_cons.mpr ⟨(contByte_spec _).1, List.forall_mem_cons.mpr
      ⟨(contByte_spec _).1, List.forall_mem_singleton.mpr (contByte_spec _).1⟩⟩
  · rw [hm, contValue_cons, contValue_cons, contValue_cons]
    show (_ : Nat) % _ = _
    omega

theorem ascii_bytes (h : c.toNat < 0x80) :
    String.utf8EncodeChar c = [UInt8.ofNat c.toNat] := by
  unfold String.utf8EncodeChar
  exact if_pos (by show c.toNat ≤ 0x7f; omega)

/-- A character that is not ASCII has a lead byte and continuation bytes. -/
theorem char_bytes (h : ¬ c.toNat < 0x80) : ∃ b conts, Multibyte c b conts := by
  have hscalar := char_scalar c
  by_cases h2 : c.toNat ≤ 0x7ff
  · exact multibyte_two ⟨by omega, h2⟩
  by_cases h3 : c.toNat ≤ 0xffff
  · exact multibyte_three ⟨by omega, h3⟩
  · exact multibyte_four ⟨by omega, by omega⟩

/-- **Of the other characters** the decoder takes U+07FF and U+FFFF. -/
theorem Multibyte.refused_iff {b : UInt8} {conts : List UInt8} (h : Multibyte c b conts) :
    Refused b conts ↔ c.toNat ≠ 0x7ff ∧ c.toNat ≠ 0xffff := by
  have hscalar := char_scalar c
  have hne : conts ≠ [] := by
    rintro rfl
    rcases h.range with ⟨hl, -⟩ | ⟨hl, -⟩ | ⟨hl, -⟩ <;> cases hl
  unfold Refused Barred
  rw [h.value]
  rcases h.range with ⟨hl, hr⟩ | ⟨hl, hr⟩ | ⟨hl, hr⟩
  · rw [hl, show utf8bounds.getD 1 0 = 0x7ff from rfl]
    simp only [hne, ne_eq, not_false_eq_true, true_and]
    omega
  · rw [hl, show utf8bounds.getD 2 0 = 0xffff from rfl]
    simp only [hne, ne_eq, not_false_eq_true, true_and]
    omega
  · rw [hl, show utf8bounds.getD 3 0 = 0x1fffff from rfl]
    simp only [hne, ne_eq, not_false_eq_true, true_and]
    omega

/-- No character begins with a continuation byte. -/
theorem head_not_cont (c : Char) :
    ∃ x t, String.utf8EncodeChar c = x :: t ∧ isCont x = false := by
  by_cases h : c.toNat < 0x80
  · exact ⟨_, _, ascii_bytes h, (ascii_byte _ h).1⟩
  · obtain ⟨b, conts, hb⟩ := char_bytes h
    exact ⟨b, conts, hb.bytes, hb.lead.2.2⟩

theorem utf8Of_cons (c : Char) (cs : List Char) :
    utf8Of (c :: cs) = String.utf8EncodeChar c ++ utf8Of cs := List.flatMap_cons

theorem utf8Of_head (h : cs ≠ []) : ∃ x t, utf8Of cs = x :: t ∧ isCont x = false := by
  obtain ⟨c, cs, rfl⟩ := List.exists_cons_of_ne_nil h
  obtain ⟨x, t, hc, hx⟩ := head_not_cont c
  exact ⟨x, t ++ utf8Of cs, by rw [utf8Of_cons, hc, List.cons_append], hx⟩

/-! ## From UTF-8 -/

/-- The characters are taken, and the last one is ASCII, so that its end is seen. -/
def AllTaken (cs : List Char) : Prop := (∀ c ∈ cs, Taken c) ∧ ∀ c ∈ cs.getLast?, c.toNat < 0x80

theorem allTaken_cons (c : Char) (h : cs ≠ []) : AllTaken (c :: cs) ↔ Taken c ∧ AllTaken cs := by
  obtain ⟨c', cs, rfl⟩ := List.exists_cons_of_ne_nil h
  unfold AllTaken
  rw [List.forall_mem_cons, List.getLast?_cons_cons, and_assoc]

theorem allTaken_singleton : AllTaken [c] ↔ c.toNat < 0x80 := by
  simp [AllTaken, Taken]
  omega

/-- A call that converts has been given characters that are taken. -/
theorem allTaken_of_ok {n : Nat} (h : At obj cap .utf8 (utf8Of cs) [] s)
    (ha : Stops (step obj cap) s a) (hret : a.ret = .ok n) : AllTaken cs := by
  have hnot : ¬ Rejected (utf8Of cs) := fun hrej => by
    obtain ⟨a', ha', hret'⟩ := rejected_stops hrej h
    rw [stops_unique ha ha', hret'] at hret
    cases hret
  induction cs generalizing s with
  | nil => exact ⟨by simp, by simp⟩
  | cons c cs ih =>
    rw [utf8Of_cons] at h hnot
    by_cases hc : c.toNat < 0x80
    · rw [ascii_bytes hc, List.cons_append, List.nil_append] at h hnot
      have hb := (ascii_byte _ hc).2.1
      obtain ⟨s', hstep, h'⟩ := h.ascii hb
      have hrest := ih h' ((stops_again hstep).mp ha) fun hrej => hnot (.ascii hb hrej)
      by_cases hnil : cs = []
      · rw [hnil]
        exact allTaken_singleton.mpr hc
      · exact (allTaken_cons c hnil).mpr ⟨.inl hc, hrest⟩
    · obtain ⟨b, conts, hm⟩ := char_bytes hc
      obtain ⟨hlo, hhi, -⟩ := hm.lead
      rw [hm.bytes] at h hnot
      by_cases hnil : cs = []
      · -- the decoder reads behind the input
        rw [hnil, utf8Of, List.flatMap_nil, List.append_nil] at h
        exact absurd ha (h.reads_past hlo hhi hm.cont a)
      · obtain ⟨x, t, hx, hxc⟩ := utf8Of_head hnil
        rw [hx, List.cons_append] at h hnot
        have hseq := h.sequence hlo hhi hm.cont hxc
        by_cases href : Refused b conts
        · exact absurd (.sequence hlo hhi hm.cont hxc href) hnot
        · rw [if_neg href] at hseq
          obtain ⟨s', hstep, h'⟩ := hseq
          rw [← hx] at h'
          have hrest := ih h' ((stops_again hstep).mp ha) fun hrej =>
            hnot (.behind hlo hhi hm.cont hxc href (hx ▸ hrej))
          rw [hm.refused_iff] at href
          exact (allTaken_cons c hnil).mpr ⟨.inr (by omega), hrest⟩

/-- A character that is taken is decoded to its value, if it is ASCII or another follows. -/
theorem decode_taken (hc : Taken c) (hnext : c.toNat < 0x80 ∨ cs ≠ []) :
    decode .utf8 (String.utf8EncodeChar c ++ (utf8Of cs ++ behind))
      (String.utf8EncodeChar c ++ utf8Of cs).length =
        .char c.toNat (String.utf8EncodeChar c).length .utf8 0 := by
  by_cases h : c.toNat < 0x80
  · obtain ⟨-, hb, hval⟩ := ascii_byte _ h
    rw [ascii_bytes h, List.cons_append, decode_ascii hb, hval]
    rfl
  · obtain ⟨b, conts, hm⟩ := char_bytes h
    obtain ⟨x, t, hx, hxc⟩ := utf8Of_head (hnext.resolve_left h)
    have href : ¬ Refused b conts := by
      rw [hm.refused_iff]
      rintro ⟨h1, h2⟩
      exact hc.elim h fun hh => hh.elim h1 h2
    rw [Refused, not_or] at href
    rw [hm.bytes, hx, List.cons_append, List.cons_append,
      decode_sequence hm.lead.1 hm.lead.2.1 hm.cont hxc
        (by simp only [List.length_append, List.length_cons]; omega),
      if_neg href.1, hm.value, List.length_cons, Nat.add_comm]

theorem Taken.not_barred (h : Taken c) : ¬ Barred c.toNat := by
  rintro ⟨h1, h2⟩
  rcases h with h | h | h <;> omega

/-- The other charsets. -/
def IsMid (mid : Charset) : Prop := mid = .ucs4 ∨ mid = .utf16le ∨ mid = .utf16be

theorem IsMid.after (h : IsMid mid) : mid.after = mid := by
  rcases h with rfl | rfl | rfl <;> rfl

theorem IsMid.lossy (h : IsMid mid) (hv : v < 0x110000) : lossy mid v = false := by
  rcases h with rfl | rfl | rfl
  · rfl
  · simp only [Iconv.lossy, Bool.and_eq_false_iff, decide_eq_false_iff_not]
    omega
  · simp only [Iconv.lossy, Bool.and_eq_false_iff, decide_eq_false_iff_not]
    omega

theorem converts_from_utf8 (hmid : IsMid mid) (hcs : AllTaken cs) :
    Converts .utf8 mid (utf8Of cs) (cs.flatMap fun c => encoded mid c.toNat) := by
  refine converts_chars String.utf8EncodeChar Char.toNat cs hmid.after
    (fun c _ => String.utf8EncodeChar_ne_nil) (fun behind c post hpost => ?_)
    (fun c hc => (hcs.1 c hc).not_barred)
    (fun c _ => hmid.lossy (by have := char_scalar c; omega))
  refine decode_taken (hcs.1 c (hpost.mem List.mem_cons_self)) ?_
  by_cases hnil : post = []
  · subst hnil
    refine .inl (hcs.2 c ?_)
    obtain ⟨pre, rfl⟩ := hpost
    rw [List.getLast?_append_of_ne_nil _ (List.cons_ne_nil _ _)]
    rfl
  · exact .inr hnil

/-! ## Back to UTF-8 -/

theorem pair_ofNat (be : Bool) (a b : Nat) : pair be (UInt8.ofNat a) (UInt8.ofNat b) =
    if be then a % 256 * 256 + b % 256 else b % 256 * 256 + a % 256 := by
  cases be <;> simp [pair, UInt8.toNat_ofNat']

theorem decode_ucs4 (hv : v < 2 ^ 32) (hleft : 4 ≤ left) :
    decode .ucs4 (ucs4Char v ++ t) left = .char v 4 .ucs4 0 := by
  simp only [decode, ucs4Char, List.cons_append, List.nil_append, pair_ofNat]
  rw [if_neg (by omega)]
  congr 1
  simp only [if_true]
  omega

theorem encoded_ucs4 (hv : v < 2 ^ 23) : encoded .ucs4 v = ucs4Char v := by
  have h23 : v / 2 ^ 23 = 0 := Nat.div_eq_of_lt hv
  have h24 : v / 2 ^ 24 = 0 := Nat.div_eq_of_lt (by omega)
  simp only [encoded, ucs4Char, lo, h23, h24]

theorem decode_utf16 (be : Bool) (hv : v < 0xd800 ∨ 0xdfff < v ∧ v ≤ 0xffff) (hleft : 2 ≤ left) :
    decodeUtf16 be (unit16 be v ++ t) left 0 =
      .char v 2 (if be then .utf16be else .utf16le) 0 := by
  have hunit : unit16 be v = bytes16 be v := if_neg (by omega)
  rw [hunit]
  unfold decodeUtf16 bytes16 hi lo
  cases be with
  | true =>
    simp only [if_true, List.cons_append, List.nil_append, pair_ofNat]
    rw [if_neg (by omega), if_neg (by omega)]
    congr 1
    omega
  | false =>
    simp only [Bool.false_eq_true, if_false, false_and, List.cons_append, List.nil_append,
      pair_ofNat]
    rw [if_neg (by omega)]
    congr 1
    omega

/-- A character of the first plane is read back. -/
theorem decode_mid (hmid : IsMid mid) (hv : v < 0xd800 ∨ 0xdfff < v ∧ v ≤ 0xffff)
    (hleft : (encoded mid v).length ≤ left) :
    decode mid (encoded mid v ++ t) left = .char v (encoded mid v).length mid 0 := by
  rcases hmid with rfl | rfl | rfl
  · rw [encoded_ucs4 (by omega)] at hleft ⊢
    exact decode_ucs4 (by omega) hleft
  · have hlen := length_unit16 false v
    rw [if_neg (by omega)] at hlen
    rw [encoded] at hleft ⊢
    rw [hlen] at hleft ⊢
    have h := decode_utf16 (t := t) false hv hleft
    obtain ⟨a, b, hab⟩ := List.length_eq_two.mp hlen
    rw [hab] at h ⊢
    exact h
  · have hlen := length_unit16 true v
    rw [if_neg (by omega)] at hlen
    rw [encoded] at hleft ⊢
    rw [hlen] at hleft ⊢
    have h := decode_utf16 (t := t) true hv hleft
    obtain ⟨a, b, hab⟩ := List.length_eq_two.mp hlen
    rw [hab] at h ⊢
    exact h

/-- The encoder of UTF-8 gives the bytes back. -/
theorem encoded_utf8 (hc : Taken c) : encoded .utf8 c.toNat = String.utf8EncodeChar c := by
  have hchar (n : Nat) (h : c.toNat = n) : c = Char.ofNat n := by
    rw [← h, Char.ofNat_toNat]
  rcases hc with h | h | h
  · have hform : utf8Form c.toNat = (0, 0, 1) := by
      unfold utf8Form
      rw [if_neg (by omega), if_neg (by omega), if_neg (by omega), if_neg (by omega),
        if_neg (by omega)]
    rw [ascii_bytes h, encoded, hform]
    simp [utf8Tail]
  · rw [hchar _ h]
    decide
  · rw [hchar _ h]
    decide

theorem converts_to_utf8 (hmid : IsMid mid) (hcs : ∀ c ∈ cs, Taken c) :
    Converts mid .utf8 (cs.flatMap fun c => encoded mid c.toNat) (utf8Of cs) := by
  have hplane (c : Char) (hc : Taken c) : c.toNat < 0xd800 ∨ 0xdfff < c.toNat ∧ c.toNat ≤ 0xffff := by
    rcases hc with h | h | h <;> omega
  have hout : utf8Of cs = cs.flatMap fun c => encoded .utf8 c.toNat :=
    (List.flatMap_congr fun c hc => encoded_utf8 (hcs c hc)).symm
  rw [hout]
  refine converts_chars (fun c => encoded mid c.toNat) Char.toNat cs rfl (fun c _ => ?_)
    (fun behind c post hpost => ?_) (fun c hc => (hcs c hc).not_barred)
    (fun c _ => (rfl : lossy .utf8 c.toNat = false))
  · exact List.ne_nil_of_length_pos (length_encoded mid c.toNat).1
  · refine decode_mid hmid (hplane c (hcs c (hpost.mem List.mem_cons_self))) ?_
    rw [List.length_append]
    exact Nat.le_add_right _ _

/-! ## The way there and back -/

theorem Converts.unique {bytes w w' : List UInt8} (h : Converts src dst bytes w)
    (h' : Converts src dst bytes w') : w = w' := by
  obtain ⟨a, ha, -, -, hw⟩ := h [] _ _ (fun _ => 0) le_rfl le_rfl
  obtain ⟨a', ha', -, -, hw'⟩ := h' [] _ _ (fun _ => 0) le_rfl le_rfl
  rw [← hw, ← hw', stops_unique ha ha']

theorem roundTrips_iff (hmid : IsMid mid) : RoundTrips mid cs ↔ AllTaken cs := by
  constructor
  · rintro ⟨w, h, -⟩
    obtain ⟨a, ha, hret, -⟩ := h [] _ _ (fun _ => 0) le_rfl le_rfl
    exact allTaken_of_ok (at_start .utf8 mid (utf8Of cs) [] _ le_rfl le_rfl) ha hret
  · intro hcs
    exact ⟨_, converts_from_utf8 hmid hcs, converts_to_utf8 hmid hcs.1⟩

theorem converts_ucs4 {vs : List Nat}
    (hvs : ∀ v ∈ vs, v < 2 ^ 31 ∧ ¬ (0xd800 ≤ v ∧ v ≤ 0xdfff)) :
    Converts .ucs4 .ucs4 (ucs4Of vs) (vs.flatMap (encoded .ucs4)) := by
  refine converts_chars ucs4Char id vs rfl (fun v _ => List.cons_ne_nil _ _)
    (fun behind v post hpost => ?_) (fun v hv => ?_) (fun _ _ => rfl)
  · have hv := hvs v (hpost.mem List.mem_cons_self)
    exact decode_ucs4 (by omega) (by rw [List.length_append]; exact Nat.le_add_right _ _)
  · have hv := hvs v hv
    rintro ⟨h1, h2⟩
    exact hv.2 ⟨h1, by simp only [id] at h2; omega⟩

theorem ucs4_kept_iff {vs : List Nat}
    (hvs : ∀ v ∈ vs, v < 2 ^ 31 ∧ ¬ (0xd800 ≤ v ∧ v ≤ 0xdfff)) :
    Converts .ucs4 .ucs4 (ucs4Of vs) (ucs4Of vs) ↔ ∀ v ∈ vs, v < 2 ^ 23 := by
  have hconv := converts_ucs4 hvs
  constructor
  · intro h
    have heq := h.unique hconv
    clear h hconv
    induction vs with
    | nil => exact nofun
    | cons v vs ih =>
      rw [List.forall_mem_cons] at hvs ⊢
      rw [ucs4Of, List.flatMap_cons, List.flatMap_cons] at heq
      obtain ⟨hhead, htail⟩ := List.append_inj heq rfl
      refine ⟨?_, ih hvs.2 htail⟩
      have hbyte := congrArg UInt8.toNat (List.cons.inj hhead).1
      simp only [lo, UInt8.toNat_ofNat'] at hbyte
      omega
  · intro h
    have heq : vs.flatMap (encoded .ucs4) = ucs4Of vs :=
      List.flatMap_congr fun v hv => encoded_ucs4 (h v hv)
    rwa [heq] at hconv

/-- **What comes back.** From UTF-8 through another charset the characters of ASCII, U+07FF and
U+FFFF do, if the last one is ASCII; from UCS-4 to itself the numbers below `2 ^ 23` do. -/
theorem roundtrip_iff (mid : Charset) (cs : List Char) (vs : List Nat) (hmid : IsMid mid)
    (hvs : ∀ v ∈ vs, v < 2 ^ 31 ∧ ¬ (0xd800 ≤ v ∧ v ≤ 0xdfff)) :
    (RoundTrips mid cs ↔ AllTaken cs) ∧
      (Converts .ucs4 .ucs4 (ucs4Of vs) (ucs4Of vs) ↔ ∀ v ∈ vs, v < 2 ^ 23) :=
  ⟨roundTrips_iff hmid, ucs4_kept_iff hvs⟩

theorem roundtrip_iff_ab : RoundTrips .utf16le ['a', 'b'] ∧
    Converts .ucs4 .ucs4 (ucs4Of [97, 0x10ffff]) (ucs4Of [97, 0x10ffff]) := by
  have h := roundtrip_iff .utf16le ['a', 'b'] [97, 0x10ffff] (.inr (.inl rfl)) (by simp)
  exact ⟨h.1.mpr (by simp [AllTaken, Taken]), h.2.mpr (by simp)⟩

/-- U+00E9 with a letter behind it is refused, and so nothing comes back; and UCS-4 to UCS-4
changes `2 ^ 23`. -/
theorem roundtrip_fails :
    (∃ a, Returns .utf8 .utf16le [0xc3, 0xa9, 0x61] 3 22 22 (fun _ => 0) a ∧
      a.ret = .error .EILSEQ) ∧ utf8Of ['é', 'a'] = [0xc3, 0xa9, 0x61] ∧
    ¬ RoundTrips .utf16le ['é', 'a'] ∧
    ¬ Converts .ucs4 .ucs4 (ucs4Of [2 ^ 23]) (ucs4Of [2 ^ 23]) := by
  have hrun : (run (step [0xc3, 0xa9, 0x61] 22) 2 (start .utf8 .utf16le 3 22 fun _ => 0)).map
      (fun x => x.map Answer.ret) = some (.ok (.error .EILSEQ)) := by decide
  obtain ⟨x, hx, hxa⟩ := Option.map_eq_some_iff.mp hrun
  cases x with
  | error => cases hxa
  | ok a =>
    refine ⟨⟨a, ⟨2, hx⟩, Except.ok.inj hxa⟩, by decide, fun h => ?_, fun h => ?_⟩
    · exact absurd ((roundTrips_iff (.inr (.inl rfl))).mp h).1 (by simp [Taken])
    · exact absurd ((ucs4_kept_iff (by decide)).mp h) (by decide)

end Dietlibc.Iconv
