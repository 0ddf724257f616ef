import Dietlibc.Iconv.Turn

/-!
# What iconv takes for UTF-8

`WellFormed` is what UTF-8 is, `Truncated` an input that ends inside a sequence. The decoder takes
a byte of 0x80 or more with whatever continuation bytes follow it, and refuses them by their number
and value alone (`Refused`). `checks_iff` says for which inputs the verdict is right whatever
stands behind the input.
-/

namespace Dietlibc.Iconv

open Machine

variable {obj bytes p cs t behind : List UInt8} {left cap outLeft : Nat} {s : St} {dst : Charset}
  {buf : Mem} {a : Answer} {b x : UInt8}

/-! ## The claim -/

/-- The length of the sequence that a lead byte announces; 0 for other bytes. -/
def announced (b : UInt8) : Nat :=
  if b < 0x80 then 1
  else if b < 0xc0 then 0
  else if b < 0xe0 then 2
  else if b < 0xf0 then 3
  else if b < 0xf8 then 4
  else if b < 0xfc then 5
  else if b < 0xfe then 6
  else 0

/-- The least value that needs `n` continuation bytes. -/
def least (n : Nat) : Nat := [0, 0x80, 0x800, 0x10000, 0x200000, 0x4000000].getD n 0

/-- The value of the lead byte `b` with the continuation bytes `cs`. -/
def seqValue (b : UInt8) (cs : List UInt8) : Nat :=
  cs.foldl (fun v c => v * 64 + c.toNat % 64)
    (if cs = [] then b.toNat else b.toNat % 2 ^ (6 - cs.length))

/-- A minimal-length encoding. -/
structure Sequence (b : UInt8) (cs : List UInt8) : Prop where
  lead : announced b = cs.length + 1
  conts : ∀ c ∈ cs, isCont c = true
  minimal : least cs.length ≤ seqValue b cs
  scalar : ¬ (0xd800 ≤ seqValue b cs ∧ seqValue b cs ≤ 0xdfff)

inductive WellFormed : List UInt8 → Prop where
  | nil : WellFormed []
  | cons {b : UInt8} {cs rest : List UInt8} (h : Sequence b cs) (hrest : WellFormed rest) :
      WellFormed (b :: (cs ++ rest))

/-- The input ends inside a sequence. -/
def Truncated (bytes : List UInt8) : Prop :=
  ∃ wf b cs, bytes = wf ++ b :: cs ∧ WellFormed wf ∧ cs.length + 1 < announced b ∧
    ∀ c ∈ cs, isCont c = true

/-- With enough room, and whatever stands `behind` the input: only well-formed input is converted,
truncated input gives `EINVAL` and any other `EILSEQ`. -/
def Checks (dst : Charset) (bytes : List UInt8) : Prop :=
  ∀ behind cap outLeft buf, 6 * bytes.length + 4 ≤ outLeft → outLeft ≤ cap →
    (∀ a n, Returns .utf8 dst (bytes ++ behind) bytes.length cap outLeft buf a →
      a.ret = .ok n → WellFormed bytes) ∧
    (Truncated bytes → ∃ a, Returns .utf8 dst (bytes ++ behind) bytes.length cap outLeft buf a ∧
      a.ret = .error .EINVAL) ∧
    (¬ WellFormed bytes → ¬ Truncated bytes →
      ∃ a, Returns .utf8 dst (bytes ++ behind) bytes.length cap outLeft buf a ∧
        a.ret = .error .EILSEQ)

/-- `i>6 || (i>1 && v<utf8bounds[i-1])`, or the value is barred. -/
def Refused (b : UInt8) (cs : List UInt8) : Prop :=
  (5 < cs.length ∨ cs ≠ [] ∧
    contValue (maskLead b leads).toNat cs < utf8bounds.getD cs.length 0) ∨
  Barred (contValue (maskLead b leads).toNat cs)

instance (b : UInt8) (cs : List UInt8) : Decidable (Refused b cs) :=
  inferInstanceAs (Decidable ((_ ∨ _) ∨ _))

/-- In front of the last character, some byte is 0xfe or 0xff, or is refused with the continuation
bytes that follow it. -/
inductive Rejected : List UInt8 → Prop where
  | ascii {b : UInt8} {p : List UInt8} (hb : b < 0x80) (h : Rejected p) : Rejected (b :: p)
  | byte {b : UInt8} {p : List UInt8} (hb : 0xfe ≤ b) : Rejected (b :: p)
  | sequence {b x : UInt8} {cs p : List UInt8} (hb : 0x80 ≤ b) (hb' : b < 0xfe)
      (hcs : ∀ c ∈ cs, isCont c = true) (hx : isCont x = false) (h : Refused b cs) :
      Rejected (b :: (cs ++ x :: p))
  | behind {b x : UInt8} {cs p : List UInt8} (hb : 0x80 ≤ b) (hb' : b < 0xfe)
      (hcs : ∀ c ∈ cs, isCont c = true) (hx : isCont x = false) (hok : ¬ Refused b cs)
      (h : Rejected (x :: p)) : Rejected (b :: (cs ++ x :: p))

/-! ## Well-formed and truncated input -/

theorem WellFormed.cancel {u w : List UInt8} (hu : WellFormed u) (h : WellFormed (u ++ w)) :
    WellFormed w := by
  induction hu with
  | nil => exact h
  | @cons b cs rest hseq _ ih =>
    generalize htext : b :: (cs ++ rest) ++ w = text at h
    cases h with
    | nil => cases htext
    | @cons b' cs' rest' hseq' hrest' =>
      rw [List.cons_append, List.append_assoc] at htext
      obtain ⟨rfl, htail⟩ := List.cons.inj htext
      have hlen : cs.length = cs'.length := by
        have := hseq.lead
        have := hseq'.lead
        omega
      obtain ⟨-, rfl⟩ := List.append_inj htail hlen
      exact ih hrest'

/-- No input is both. -/
theorem WellFormed.not_truncated (h : WellFormed bytes) : ¬ Truncated bytes := by
  rintro ⟨wf, b, cs, rfl, hwf, hlen, -⟩
  have hlast := hwf.cancel h
  generalize htext : b :: cs = text at hlast
  cases hlast with
  | nil => cases htext
  | cons hseq _ =>
    obtain ⟨rfl, rfl⟩ := List.cons.inj htext
    have := hseq.lead
    rw [List.length_append] at hlen
    omega

/-! ## The decoder -/

theorem decode_ascii (hb : b < 0x80) : decode .utf8 (b :: p) left = .char b.toNat 1 .utf8 0 :=
  if_pos hb

theorem decode_high (hb : 0xfe ≤ b) : decode .utf8 (b :: p) left = .fail .EILSEQ 0 := by
  have hlow : ¬ b < 0x80 := UInt8.not_lt.mpr (UInt8.le_trans (by decide) hb)
  simp only [decode, decodeUtf8]
  rw [if_neg hlow, if_pos hb]

/-- **A byte with its continuation bytes**, and one that is none behind them. -/
theorem decode_sequence (hb : 0x80 ≤ b) (hb' : b < 0xfe) (hcs : ∀ c ∈ cs, isCont c = true)
    (hx : isCont x = false) (hlen : cs.length ≤ left) :
    decode .utf8 (b :: (cs ++ x :: t)) left =
      if 5 < cs.length ∨ cs ≠ [] ∧
          contValue (maskLead b leads).toNat cs < utf8bounds.getD cs.length 0 then
        .fail .EILSEQ 0
      else .char (contValue (maskLead b leads).toNat cs) (1 + cs.length) .utf8 0 := by
  have hpos : 1 < 1 + cs.length ↔ cs ≠ [] := by
    rw [ne_eq, ← List.length_eq_zero_iff]
    omega
  have hsix : 6 < 1 + cs.length ↔ 5 < cs.length := by omega
  simp only [decode, decodeUtf8]
  rw [if_neg (UInt8.not_lt.mpr hb), if_neg (UInt8.not_le.mpr hb'),
    utf8Cont_char hcs hx (by omega)]
  dsimp only
  simp only [hpos, hsix, Nat.add_sub_cancel_left]

theorem decode_all_cont (hb : 0x80 ≤ b) (hb' : b < 0xfe) (hp : ∀ c ∈ p, isCont c = true)
    (hlen : p.length ≤ left) : decode .utf8 (b :: p) left = .fault := by
  simp only [decode, decodeUtf8]
  rw [if_neg (UInt8.not_lt.mpr hb), if_neg (UInt8.not_le.mpr hb'), utf8Cont_fault hp (by omega)]

/-! ## Turns -/

theorem At.ascii (h : At obj cap .utf8 (b :: p) behind s) (hb : b < 0x80) :
    ∃ s', step obj cap s = .again s' ∧ At obj cap .utf8 p behind s' := by
  have hlow : b.toNat < 0x80 := UInt8.lt_iff_toNat_lt.mp hb
  obtain ⟨s', hstep, h', -⟩ := h.char (p := [b]) (List.cons_ne_nil _ _) (decode_ascii hb)
    (fun hv => by have := hv.1; omega)
  exact ⟨s', hstep, h'⟩

/-- A turn that does not decode fails. -/
theorem At.fails (h : At obj cap .utf8 (b :: p) behind s)
    (hdec : decode .utf8 (b :: (p ++ behind)) (p.length + 1) = .fail .EILSEQ 0) :
    ∃ a, Stops (step obj cap) s a ∧ a.ret = .error .EILSEQ := by
  have hleft := h.left
  rw [List.length_cons] at hleft
  have htext := h.text
  rw [List.cons_append] at htext
  rw [← htext, ← hleft, ← h.src] at hdec
  have hstep : step obj cap s = failed .EILSEQ s.left s.out := by
    unfold step
    rw [if_neg (by omega), hdec]
    rfl
  exact ⟨_, (stops_stop hstep).mpr rfl, rfl⟩

/-- A byte of 0x80 or more with its continuation bytes, in front of another byte. -/
theorem At.sequence (h : At obj cap .utf8 (b :: (cs ++ x :: p)) behind s) (hb : 0x80 ≤ b)
    (hb' : b < 0xfe) (hcs : ∀ c ∈ cs, isCont c = true) (hx : isCont x = false) :
    if Refused b cs then ∃ a, Stops (step obj cap) s a ∧ a.ret = .error .EILSEQ
    else ∃ s', step obj cap s = .again s' ∧ At obj cap .utf8 (x :: p) behind s' := by
  have hlen : cs.length ≤ (b :: (cs ++ x :: p)).length := by
    simp only [List.length_cons, List.length_append]
    omega
  have hdec := decode_sequence (t := p ++ behind) hb hb' hcs hx hlen
  split
  · rename_i href
    by_cases hform : 5 < cs.length ∨ cs ≠ [] ∧
        contValue (maskLead b leads).toNat cs < utf8bounds.getD cs.length 0
    · rw [if_pos hform] at hdec
      refine h.fails ?_
      rwa [List.append_assoc, List.cons_append]
    · have hv := href.resolve_left hform
      rw [if_neg hform] at hdec
      have htext := h.text
      rw [List.cons_append, List.append_assoc, List.cons_append] at htext
      rw [← htext, ← h.left, ← h.src] at hdec
      have hleft := h.left
      rw [List.length_cons] at hleft
      have hstep : step obj cap s = failed .EILSEQ s.left s.out := by
        unfold step
        rw [if_neg (by omega), hdec]
        exact if_pos hv
      exact ⟨_, (stops_stop hstep).mpr rfl, rfl⟩
  · rename_i href
    rw [Refused, not_or] at href
    rw [if_neg href.1] at hdec
    have h' : At obj cap .utf8 ((b :: cs) ++ x :: p) behind s := h
    obtain ⟨s', hstep, h'', -⟩ := h'.char (List.cons_ne_nil _ _) (by
      rw [List.length_cons, Nat.add_comm cs.length]
      exact hdec) href.2
    exact ⟨s', hstep, h''⟩

/-- A byte of 0x80 or more with nothing but continuation bytes: the byte behind the input is read. -/
theorem At.reads_past (h : At obj cap .utf8 (b :: p) [] s) (hb : 0x80 ≤ b) (hb' : b < 0xfe)
    (hp : ∀ c ∈ p, isCont c = true) (a : Answer) : ¬ Stops (step obj cap) s a := by
  have hdec : decode .utf8 (b :: p) (p.length + 1) = .fault :=
    decode_all_cont hb hb' hp (Nat.le_succ _)
  have htext := h.text
  have hleft := h.left
  rw [List.append_nil] at htext
  rw [List.length_cons] at hleft
  rw [← htext, ← hleft, ← h.src] at hdec
  have hstep : step obj cap s = .fault () := by
    unfold step
    rw [if_neg (by omega), hdec]
  exact not_stops_fault hstep

/-- **Input that is rejected** gives `EILSEQ`. -/
theorem rejected_stops (hp : Rejected p) (h : At obj cap .utf8 p behind s) :
    ∃ a, Stops (step obj cap) s a ∧ a.ret = .error .EILSEQ := by
  induction hp generalizing s with
  | ascii hb _ ih =>
    obtain ⟨s', hstep, h'⟩ := h.ascii hb
    obtain ⟨a, ha, hret⟩ := ih h'
    exact ⟨a, (stops_again hstep).mpr ha, hret⟩
  | byte hb => exact h.fails (decode_high hb)
  | sequence hb hb' hcs hx href =>
    have hseq := h.sequence hb hb' hcs hx
    rwa [if_pos href] at hseq
  | behind hb hb' hcs hx hok _ ih =>
    have hseq := h.sequence hb hb' hcs hx
    rw [if_neg hok] at hseq
    obtain ⟨s', hstep, h'⟩ := hseq
    obtain ⟨a, ha, hret⟩ := ih h'
    exact ⟨a, (stops_again hstep).mpr ha, hret⟩

/-- With nothing behind the input, no other input gives an error. -/
theorem rejected_of_error {e : Errno} (h : At obj cap .utf8 p [] s) (ha : Stops (step obj cap) s a)
    (hret : a.ret = .error e) : Rejected p := by
  induction hn : p.length using Nat.strong_induction_on generalizing p s with
  | _ n ih =>
    rcases p with - | ⟨b, p⟩
    · have hstep : step obj cap s =
          .stop ⟨.ok s.out.result, s.pos, s.left, s.out.pos, s.out.left, s.out.buf⟩ :=
        if_pos h.left
      rw [(stops_stop hstep).mp ha] at hret
      cases hret
    · rw [List.length_cons] at hn
      by_cases hb : b < 0x80
      · obtain ⟨s', hstep, h'⟩ := h.ascii hb
        exact .ascii hb (ih p.length (by omega) h' ((stops_again hstep).mp ha) rfl)
      by_cases hb' : 0xfe ≤ b
      · exact .byte hb'
      have hlead := UInt8.not_lt.mp hb
      have hlow := UInt8.not_le.mp hb'
      rcases cont_split p with hall | ⟨cs, x, t, rfl, hcs, hx⟩
      · exact absurd ha (h.reads_past hlead hlow hall a)
      · have hseq := h.sequence hlead hlow hcs hx
        by_cases href : Refused b cs
        · exact .sequence hlead hlow hcs hx href
        · rw [if_neg href] at hseq
          obtain ⟨s', hstep, h'⟩ := hseq
          refine .behind hlead hlow hcs hx href
            (ih (x :: t).length ?_ h' ((stops_again hstep).mp ha) rfl)
          rw [List.length_append] at hn
          omega

/-! ## The verdict -/

theorem at_start (src dst : Charset) (bytes behind : List UInt8) (buf : Mem)
    (hroom : 6 * bytes.length + 4 ≤ outLeft) (hcap : outLeft ≤ cap) :
    At (bytes ++ behind) cap src bytes behind (start src dst bytes.length outLeft buf) :=
  ⟨rfl, rfl, rfl, hroom, by show 0 + outLeft ≤ cap; omega⟩

/-- **The verdict is right** exactly for well-formed input, and for ill-formed input that is
rejected and does not end inside a sequence. -/
theorem checks_iff (dst : Charset) (bytes : List UInt8) :
    Checks dst bytes ↔ WellFormed bytes ∨ ¬ Truncated bytes ∧ Rejected bytes := by
  constructor
  · intro h
    by_contra hcond
    rw [not_or, not_and'] at hcond
    obtain ⟨hwf, htrunc⟩ := hcond
    obtain ⟨-, h1, h2⟩ := h [] (6 * bytes.length + 4) (6 * bytes.length + 4) (fun _ => 0) le_rfl
      le_rfl
    have hstart : At (bytes ++ []) (6 * bytes.length + 4) .utf8 bytes []
        (start .utf8 dst bytes.length (6 * bytes.length + 4) fun _ => 0) :=
      at_start .utf8 dst bytes [] _ le_rfl le_rfl
    by_cases hcut : Truncated bytes
    · obtain ⟨a, ha, hret⟩ := h1 hcut
      obtain ⟨a', ha', hret'⟩ := rejected_stops (rejected_of_error hstart ha hret) hstart
      rw [stops_unique ha ha', hret'] at hret
      cases hret
    · obtain ⟨a, ha, hret⟩ := h2 hwf hcut
      exact htrunc (rejected_of_error hstart ha hret) hcut
  · rintro (hwf | ⟨hcut, hrej⟩) behind cap outLeft buf hroom hcap
    · exact ⟨fun _ _ _ _ => hwf, fun hcut => absurd hcut hwf.not_truncated,
        fun hno => absurd hwf hno⟩
    · obtain ⟨a, ha, hret⟩ := rejected_stops hrej
        (at_start .utf8 dst bytes behind buf hroom hcap)
      refine ⟨fun a' n ha' hok => ?_, fun hcut' => absurd hcut' hcut, fun _ _ => ⟨a, ha, hret⟩⟩
      rw [stops_unique ha' ha, hret] at hok
      cases hok

/-- A continuation byte that stands alone is converted. -/
theorem lone_continuation_accepted :
    (∃ a, Returns .utf8 .iso88591 [0x80, 0x61] 1 10 10 (fun _ => 0) a ∧ a.ret = .ok 0 ∧
      a.inbuf = 1) ∧ ¬ WellFormed [0x80] ∧ ¬ Checks .iso88591 [0x80] := by
  have hrun : (run (step [0x80, 0x61] 10) 2 (start .utf8 .iso88591 1 10 fun _ => 0)).map
      (fun x => x.map fun a => (a.ret, a.inbuf)) = some (.ok (.ok 0, 1)) := by decide
  obtain ⟨x, hx, hxa⟩ := Option.map_eq_some_iff.mp hrun
  have hwf : ¬ WellFormed [0x80] := by
    intro h
    generalize htext : [(0x80 : UInt8)] = text at h
    cases h with
    | nil => cases htext
    | cons hseq _ =>
      obtain ⟨rfl, -⟩ := List.cons.inj htext
      cases hseq.lead
  cases x with
  | error => cases hxa
  | ok a =>
    obtain ⟨hret, hin⟩ := Prod.mk.inj (Except.ok.inj hxa)
    exact ⟨⟨a, ⟨2, hx⟩, hret, hin⟩, hwf, fun h =>
      hwf ((h [0x61] 10 10 (fun _ => 0) (by decide) le_rfl).1 a 0 ⟨2, hx⟩ hret)⟩

end Dietlibc.Iconv
