import Dietlibc.Dns.GetHostBuffer
import Dietlibc.Dns.Decode

/-!
# Which replies are taken apart in bounds

`ReplyOk` is a condition on the bytes of a reply: on the labels of the questions, on each answer
up to the one that ends the loop, and, for pointer records alone, on the length of the names.
`survives_iff` says that the machine comes to its end in bounds exactly for these replies: the
records with addresses need no condition on the buffer, and the tables never overflow.
-/

namespace Dietlibc.Dns

open Machine Relation

/-! ## Names -/

/-- A compression pointer that is cut off by the end of the message. -/
def CutPointer (p : Packet) (w : Place) : Prop :=
  ∃ b, p[w.pos]? = some b ∧ b >>> 6 = 3 ∧ w.pos + 1 = p.length

/-- The name at `tmp` is read inside the message. -/
def NameIn (p : Packet) (tmp : Nat) : Prop :=
  tmp < p.length ∧ ∀ w, Reach p 256 ⟨tmp, tmp, 0, false⟩ w → ¬ CutPointer p w

section

variable {p : Packet} {maxlen : Nat} {c c' : Cursor}

theorem decodeLong_eq (p : Packet) (maxlen : Nat) (c : Cursor) :
    decodeLong p maxlen c = match turn p maxlen c with
      | .again c' => decodeLong p maxlen c'
      | .stop => .ok (some (c.after, if c.ok then c.out.dropLast else c.out))
      | .minusOne => .ok none
      | .fault => .error .read := by
  rw [decodeLong]
  split <;> rename_i h <;> rw [h]

theorem turn_again_lt (ho : c.offset < p.length)
    (h : turn p maxlen c = .again c') : c'.tmp < p.length ∧ c'.offset < p.length := by
  rcases turn_again h with ⟨b, lo, -, -, -, hofs, rfl⟩ | ⟨b, -, -, -, -, hin, rfl⟩
  · exact ⟨lt_trans hofs ho, lt_trans hofs ho⟩
  · exact ⟨hin, ho⟩

theorem cutPointer_of_fault (hc : c.tmp < p.length) (h : turn p maxlen c = .fault) :
    CutPointer p c.place :=
  (turn_ends hc).2 h

theorem not_cutPointer (h : turn p maxlen c ≠ .fault) : ¬ CutPointer p c.place := by
  rintro ⟨b, hb, h3, hend⟩
  exact h (turn_cut hb h3 hend)

/-- Decoding reads inside the message exactly if it reaches no pointer that is cut off. -/
theorem decodeLong_reads (hc : c.tmp < p.length) (ho : c.offset < p.length) :
    (∃ x, decodeLong p maxlen c = .ok x) ↔
      ∀ w, Reach p maxlen c.place w → ¬ CutPointer p w := by
  induction c using decodeLong.induct p maxlen with
  | case1 c c' ht ih =>
    rw [decodeLong_eq, ht]
    obtain ⟨hc', ho'⟩ := turn_again_lt ho ht
    refine (ih hc' ho').trans ⟨fun h w hr => ?_, fun h w hr => ?_⟩
    · rcases ReflTransGen.cases_head hr with rfl | ⟨u, hs, hr⟩
      · exact not_cutPointer (by rw [ht]; nofun)
      · obtain ⟨c1, ht1, rfl⟩ := turn_of_step hs
        rw [ht] at ht1
        cases ht1
        exact h w hr
    · exact h w (ReflTransGen.head (step_of_turn ht) hr)
  | case2 c ht =>
    rw [decodeLong_eq, ht]
    refine iff_of_true ⟨_, rfl⟩ fun w hr => ?_
    cases reach_stuck (no_step fun c' h' => by rw [ht] at h'; cases h') hr
    exact not_cutPointer (by rw [ht]; nofun)
  | case3 c ht =>
    rw [decodeLong_eq, ht]
    refine iff_of_true ⟨_, rfl⟩ fun w hr => ?_
    cases reach_stuck (no_step fun c' h' => by rw [ht] at h'; cases h') hr
    exact not_cutPointer (by rw [ht]; nofun)
  | case4 c ht =>
    rw [decodeLong_eq, ht]
    refine iff_of_false ?_ fun h => h c.place .refl (cutPointer_of_fault hc ht)
    rintro ⟨x, hx⟩
    cases hx

theorem decodeName_reads {tmp : Nat} : (∃ x, decodeName p tmp = .ok x) ↔ NameIn p tmp := by
  unfold decodeName NameIn
  by_cases hlt : tmp < p.length
  · rw [decodeLong_reads hlt hlt]
    exact (and_iff_right hlt).symm
  · refine iff_of_false ?_ fun h => hlt h.1
    have ht : turn p 256 ⟨tmp, tmp, [], tmp, false⟩ = .fault := by
      unfold turn
      rw [List.getElem?_eq_none (Nat.le_of_not_lt hlt)]
    rw [decodeLong_eq, ht]
    rintro ⟨x, hx⟩
    cases hx

/-- `Name` has a byte more than `maxlen`: apart from the terminator that this byte takes, and the
type of the value returned, the caller sees what `decodename` returns. -/
theorem decodename_of_decodeName {tmp : Nat} :
    match decodeName p tmp with
    | .error e => decodename p tmp 256 = .error e
    | .ok none => ∃ out, decodename p tmp 256 = .ok (-1, out)
    | .ok (some (after, name)) => decodename p tmp 256 =
        if name.length < 256 then .ok (CInt.conv 32 after, name ++ [0]) else .error .write := by
  unfold decodeName decodename
  dsimp only
  rw [if_neg (by decide)]
  generalize (⟨tmp, tmp, [], tmp, false⟩ : Cursor) = c
  induction c using decodeLong.induct p 256 with
  | case1 c c' ht ih =>
    rw [decodeLong_eq, ht, decodeLoop, ht]
    exact ih
  | case2 c ht =>
    rw [decodeLong_eq, ht, decodeLoop, ht]
    rfl
  | case3 c ht =>
    rw [decodeLong_eq, ht, decodeLoop, ht]
    exact ⟨c.out, rfl⟩
  | case4 c ht =>
    rw [decodeLong_eq, ht, decodeLoop, ht]

end

/-! ## Answers -/

/-- The bytes of type and class that are compared lie inside the message. -/
def TypeIn (p : Packet) (lookfor : Lookfor) (tmp : Nat) : Prop :=
  tmp + 1 < p.length ∧ (p[tmp]? = some 0 → p[tmp + 1]? = some lookfor.value →
    tmp + 2 < p.length ∧ (p[tmp + 2]? = some 0 → tmp + 3 < p.length))

/-- Type and class are those that are asked for. -/
def EntryAt (p : Packet) (lookfor : Lookfor) (tmp : Nat) : Prop :=
  p[tmp]? = some 0 ∧ p[tmp + 1]? = some lookfor.value ∧ p[tmp + 2]? = some 0 ∧
    p[tmp + 3]? = some 1

instance (p : Packet) (lookfor : Lookfor) (tmp : Nat) : Decidable (EntryAt p lookfor tmp) :=
  inferInstanceAs (Decidable (_ ∧ _ ∧ _ ∧ _))

/-- The `q` answers from `tmp` on, where the next string goes to `cur` and `first` is the name
that was entered first. -/
def AnswersOk (p : Packet) (lookfor : Lookfor) (buflen : Nat) :
    Nat → Nat → Nat → Option (List UInt8) → Prop
  | 0, _, _, _ => True
  | q + 1, tmp, cur, first =>
    NameIn p tmp ∧ ∀ r name, decodeName p tmp = .ok (some (r, name)) →
      TypeIn p lookfor r ∧
      -- a pointer record: its name is stored without a look at the end of the buffer
      (EntryAt p lookfor r → lookfor = .ptr →
        NameIn p (r + 10) ∧ ∀ tmp name, decodeName p (r + 10) = .ok (some (tmp, name)) →
          cur + (nameString name).length + 1 ≤ buflen ∧
            AnswersOk p lookfor buflen q tmp (nextCur cur first (nameString name))
              (first.or (some (nameString name)))) ∧
      -- a record with an address, if there is room for it
      (EntryAt p lookfor r → lookfor ≠ .ptr →
        noRoom lookfor buflen cur (nameString name).length = false →
        r + 10 + lookfor.addressLength ≤ p.length ∧
          AnswersOk p lookfor buflen q (r + 10 + lookfor.addressLength)
            (nextCur cur first (nameString name) + lookfor.addressLength)
            (first.or (some (nameString name)))) ∧
      -- a `CNAME`
      (¬ EntryAt p lookfor r → p[r + 1]? = some 5 →
        NameIn p (r + 10) ∧ ∀ tmp name, decodeName p (r + 10) = .ok (some (tmp, name)) →
          AnswersOk p lookfor buflen q tmp cur first)

section

variable {p : Packet} {lookfor : Lookfor} {tmp : Nat}

theorem readByte_some {i : Nat} {b : UInt8} (h : p[i]? = some b) : readByte p i = .ok b := by
  rw [readByte, h]

theorem readByte_behind {i : Nat} (h : p.length ≤ i) : readByte p i = .error .read := by
  rw [readByte, List.getElem?_eq_none h]

theorem exists_byte {i : Nat} (h : i < p.length) : ∃ b, p[i]? = some b :=
  ⟨_, List.getElem?_eq_getElem h⟩

theorem isEntry_in (h : TypeIn p lookfor tmp) :
    isEntry p lookfor tmp = .ok (decide (EntryAt p lookfor tmp)) := by
  obtain ⟨h1, h2⟩ := h
  obtain ⟨b0, hb0⟩ := exists_byte (Nat.lt_of_succ_lt h1)
  obtain ⟨b1, hb1⟩ := exists_byte h1
  unfold isEntry EntryAt
  rw [readByte_some hb0, readByte_some hb1]
  dsimp only [bind, Except.bind]
  by_cases h0 : b0 = 0
  swap
  · simp [hb0, h0, pure, Except.pure]
  by_cases hl : b1 = lookfor.value
  swap
  · simp [hb0, hb1, h0, hl, pure, Except.pure]
  obtain ⟨h2, h3⟩ := h2 (h0 ▸ hb0) (hl ▸ hb1)
  obtain ⟨b2, hb2⟩ := exists_byte h2
  rw [readByte_some hb2]
  by_cases h20 : b2 = 0
  swap
  · simp [hb0, hb1, hb2, h0, hl, h20, pure, Except.pure]
  obtain ⟨b3, hb3⟩ := exists_byte (h3 (h20 ▸ hb2))
  rw [readByte_some hb3]
  simp [hb0, hb1, hb2, hb3, h0, hl, h20, pure, Except.pure]
  rfl

/-- Type and class that stick out are read behind the message, if not by the first comparison
then by the one with 5. -/
theorem isEntry_out (h : ¬ TypeIn p lookfor tmp) :
    isEntry p lookfor tmp = .error .read ∨
      isEntry p lookfor tmp = .ok false ∧ p.length ≤ tmp + 1 := by
  unfold isEntry
  by_cases h0 : p.length ≤ tmp
  · left
    rw [readByte_behind h0]
    rfl
  obtain ⟨b0, hb0⟩ := exists_byte (Nat.lt_of_not_le h0)
  rw [readByte_some hb0]
  dsimp only [bind, Except.bind]
  by_cases hb : b0 = 0
  swap
  · by_cases h1 : p.length ≤ tmp + 1
    · right
      exact ⟨by simp [hb, pure, Except.pure], h1⟩
    · exact absurd ⟨by omega, fun h => absurd (Option.some.inj (hb0.symm.trans h)) hb⟩ h
  left
  subst hb
  by_cases h1 : p.length ≤ tmp + 1
  · rw [readByte_behind h1]
    rfl
  obtain ⟨b1, hb1⟩ := exists_byte (Nat.lt_of_not_le h1)
  rw [readByte_some hb1]
  by_cases hl : b1 = lookfor.value
  swap
  · exact absurd ⟨by omega, fun _ h => absurd (Option.some.inj (hb1.symm.trans h)) hl⟩ h
  by_cases h2 : p.length ≤ tmp + 2
  · rw [readByte_behind h2]
    simp [hl]
  obtain ⟨b2, hb2⟩ := exists_byte (Nat.lt_of_not_le h2)
  rw [readByte_some hb2]
  by_cases h20 : b2 = 0
  swap
  · exact absurd ⟨by omega, fun _ _ =>
      ⟨by omega, fun h => absurd (Option.some.inj (hb2.symm.trans h)) h20⟩⟩ h
  by_cases h3 : p.length ≤ tmp + 3
  · rw [readByte_behind h3]
    simp [hl, h20]
  · exact absurd ⟨by omega, fun _ _ => ⟨by omega, fun _ => by omega⟩⟩ h

end

/-! ## Runs -/

/-- What may be returned. -/
def Fine (r : Reply) : Prop := r.ret = 0 ∧ r.host.hName ≠ none ∨ r.ret = -1

/-- The machine comes from a stage to a fine end. -/
def Ends (p : Packet) (lookfor : Lookfor) (buflen : Nat) (h0 : Host) (s : Stage) : Prop :=
  ∃ r, Stops (gethostTurn p lookfor buflen h0) s r ∧ Fine r

section

variable {p : Packet} {lookfor : Lookfor} {buflen q tmp : Nat} {h h0 : Host} {s s' : Stage}
  {r : Reply} {e : Fault} {first : Option (List UInt8)}

theorem ends_again (hs : gethostTurn p lookfor buflen h0 s = .again s') :
    Ends p lookfor buflen h0 s ↔ Ends p lookfor buflen h0 s' :=
  exists_congr fun _ => and_congr_left fun _ => stops_again hs

theorem ends_stop (hs : gethostTurn p lookfor buflen h0 s = .stop r) (hr : Fine r) :
    Ends p lookfor buflen h0 s :=
  ⟨r, (stops_stop hs).mpr rfl, hr⟩

theorem not_ends_fault (hs : gethostTurn p lookfor buflen h0 s = .fault e) :
    ¬ Ends p lookfor buflen h0 s :=
  fun ⟨_, hr, _⟩ => not_stops_fault hs hr

theorem HostOk.weaken (hok : HostOk buflen (q + 1) h first) : HostOk buflen q h first :=
  ⟨hok.names_le, by have := hok.ips_le; omega, hok.none_iff, hok.string⟩

theorem finishAnswers_fine (hok : HostOk buflen q h first) : Fine (finishAnswers h) := by
  unfold finishAnswers
  by_cases h0 : h.names = 0
  · rw [if_pos h0]
    exact .inr rfl
  · rw [if_neg h0]
    cases first with
    | none => exact absurd (hok.none_iff.mp rfl) h0
    | some t =>
      obtain ⟨a, ha, -⟩ := hok.string t rfl
      exact .inl ⟨rfl, by rw [ha]; nofun⟩

theorem turn_answers (hx : readAnswer p lookfor tmp = .error e) :
    gethostTurn p lookfor buflen h0 (.answers (q + 1) tmp h) = .fault e := by
  rw [gethostTurn, answerTurn, hx]
  rfl

theorem turn_last (hx : readAnswer p lookfor tmp = .ok .last) :
    gethostTurn p lookfor buflen h0 (.answers (q + 1) tmp h) = .stop (finishAnswers h) := by
  rw [gethostTurn, answerTurn, hx]
  rfl

theorem turn_cname {next : Nat} (hx : readAnswer p lookfor tmp = .ok (.cname next)) :
    gethostTurn p lookfor buflen h0 (.answers (q + 1) tmp h) = .again (.answers q next h) := by
  rw [gethostTurn, answerTurn, hx]
  rfl

theorem turn_entry (h0 : Host) {name : List UInt8} {next : Nat}
    (hx : readAnswer p lookfor tmp = .ok (.entry name next))
    (hroom : noRoom lookfor buflen h.cur (nameString name).length = false) :
    gethostTurn p lookfor buflen h0 (.answers (q + 1) tmp h) =
      match h.record p lookfor buflen next name with
      | .ok h => .again (.answers q (next + lookfor.addressLength) h)
      | .error e => .fault e := by
  rw [gethostTurn, answerTurn, hx]
  dsimp only [bind, Except.bind]
  rw [hroom]
  dsimp only [pure, Except.pure]
  cases h.record p lookfor buflen next name <;> rfl

theorem turn_full {name : List UInt8} {next : Nat}
    (hx : readAnswer p lookfor tmp = .ok (.entry name next))
    (hroom : noRoom lookfor buflen h.cur (nameString name).length = true) :
    gethostTurn p lookfor buflen h0 (.answers (q + 1) tmp h) = .stop ⟨-1, 3, h⟩ := by
  rw [gethostTurn, answerTurn, hx]
  dsimp only [bind, Except.bind]
  rw [hroom]
  rfl

/-- The answers behind the first of `q + 1` are as they should be. -/
def RestOk (p : Packet) (lookfor : Lookfor) (buflen q : Nat) (h0 : Host) : Prop :=
  ∀ {tmp : Nat} {h : Host} {first : Option (List UInt8)}, HostOk buflen q h first →
    (Ends p lookfor buflen h0 (.answers q tmp h) ↔ AnswersOk p lookfor buflen q tmp h.cur first)

/-- A pointer record, whose name is stored without a look at the end of the buffer. -/
theorem ends_pointer {name : List UInt8} {next : Nat} (hb : 145 ≤ buflen)
    (hok : HostOk buflen (q + 1) h first) (ih : RestOk p .ptr buflen q h0)
    (hx : readAnswer p .ptr tmp = .ok (.entry name next)) :
    Ends p .ptr buflen h0 (.answers (q + 1) tmp h) ↔
      h.cur + (nameString name).length + 1 ≤ buflen ∧
        AnswersOk p .ptr buflen q next (nextCur h.cur first (nameString name))
          (first.or (some (nameString name))) := by
  have hroom : noRoom .ptr buflen h.cur (nameString name).length = false := rfl
  have hturn := turn_entry h0 hx hroom (q := q)
  by_cases hfit : h.cur + (nameString name).length + 1 ≤ buflen
  · obtain ⟨h', he, hok', hcur⟩ := enter_ok hb hok hfit
    have hrec : h.record p .ptr buflen next name = .ok h' := by
      rw [Host.record, he]
      rfl
    rw [hrec] at hturn
    rw [ends_again hturn, ih hok', hcur]
    exact (and_iff_right hfit).symm
  · have hrec : h.record p .ptr buflen next name = .error .write := by
      rw [Host.record, enter_fault hfit]
      rfl
    rw [hrec] at hturn
    exact iff_of_false (not_ends_fault hturn) fun h => hfit h.1

/-- The test in front of a record with an address covers the name and the address. -/
theorem room_spec {slen cur : Nat} (hl : lookfor ≠ .ptr)
    (h : noRoom lookfor buflen cur slen = false) :
    cur + slen + 1 ≤ buflen ∧ cur + (slen ||| 3) + 1 + lookfor.addressLength ≤ buflen := by
  have h3 := or_three_le slen
  cases lookfor with
  | ptr => exact absurd rfl hl
  | a =>
    have h := of_decide_eq_false h
    simp only [Lookfor.addressLength]
    omega
  | aaaa =>
    have h := of_decide_eq_false h
    simp only [Lookfor.addressLength]
    omega

/-- A record with an address. -/
theorem ends_address {name : List UInt8} {next : Nat} (hb : 145 ≤ buflen) (hl : lookfor ≠ .ptr)
    (hok : HostOk buflen (q + 1) h first) (ih : RestOk p lookfor buflen q h0)
    (hx : readAnswer p lookfor tmp = .ok (.entry name next)) :
    Ends p lookfor buflen h0 (.answers (q + 1) tmp h) ↔
      (noRoom lookfor buflen h.cur (nameString name).length = false →
        next + lookfor.addressLength ≤ p.length ∧
          AnswersOk p lookfor buflen q (next + lookfor.addressLength)
            (nextCur h.cur first (nameString name) + lookfor.addressLength)
            (first.or (some (nameString name)))) := by
  cases hroom : noRoom lookfor buflen h.cur (nameString name).length with
  | true => exact iff_of_true (ends_stop (turn_full hx hroom) (.inr rfl)) nofun
  | false =>
    have hturn := turn_entry h0 hx hroom (q := q)
    obtain ⟨hfit, hfit'⟩ := room_spec hl hroom
    obtain ⟨h', he, hok', hcur⟩ := enter_ok hb hok hfit
    have hrec : h.record p lookfor buflen next name =
        h'.putAddress p buflen lookfor.addressLength next := by
      rw [Host.record, he]
      exact if_neg hl
    by_cases hp : next + lookfor.addressLength ≤ p.length
    · have hle : nextCur h.cur first (nameString name) ≤
          h.cur + ((nameString name).length ||| 3) + 1 := by
        unfold nextCur
        split <;> omega
      obtain ⟨k, hk, hkok, hkcur⟩ := putAddress_ok hb hok' hp (by omega)
      rw [hrec, hk] at hturn
      rw [ends_again hturn, ih hkok, hkcur, hcur]
      exact ⟨fun h _ => ⟨hp, h⟩, fun h => (h rfl).2⟩
    · rw [hrec, putAddress_fault (Nat.lt_of_not_le hp)] at hturn
      exact iff_of_false (not_ends_fault hturn) fun h => hp (h rfl).1

theorem readAnswer_name (lookfor : Lookfor) {next : Nat} {name : List UInt8}
    (hd : decodeName p tmp = .ok (some (next, name))) :
    readAnswer p lookfor tmp = isEntry p lookfor next >>= fun b =>
      if b then readEntry p lookfor name next else readOther p next := by
  rw [readAnswer, hd]
  rfl

/-- A pointer record at `next`. -/
theorem ends_pointerRecord {name : List UInt8} {next : Nat} (hb : 145 ≤ buflen)
    (hok : HostOk buflen (q + 1) h first) (ih : RestOk p .ptr buflen q h0)
    (hx : readAnswer p .ptr tmp = readEntry p .ptr name next) :
    Ends p .ptr buflen h0 (.answers (q + 1) tmp h) ↔
      NameIn p (next + 10) ∧ ∀ tmp name, decodeName p (next + 10) = .ok (some (tmp, name)) →
        h.cur + (nameString name).length + 1 ≤ buflen ∧
          AnswersOk p .ptr buflen q tmp (nextCur h.cur first (nameString name))
            (first.or (some (nameString name))) := by
  rw [readEntry, if_pos rfl] at hx
  cases hd : decodeName p (next + 10) with
  | error e =>
    rw [hd] at hx
    refine iff_of_false (not_ends_fault (turn_answers hx)) fun h => ?_
    obtain ⟨x, hx⟩ := decodeName_reads.mpr h.1
    rw [hd] at hx
    cases hx
  | ok x =>
    have hin : NameIn p (next + 10) := decodeName_reads.mp ⟨x, hd⟩
    rw [hd] at hx
    cases x with
    | none => exact iff_of_true (ends_stop (turn_last hx) (finishAnswers_fine hok)) ⟨hin, nofun⟩
    | some x =>
      rw [ends_pointer hb hok ih hx]
      constructor
      · rintro h
        refine ⟨hin, ?_⟩
        rintro _ _ ⟨⟩
        exact h
      · exact fun h => h.2 _ _ rfl

/-- A record at `next` that is no entry. -/
theorem ends_otherRecord {next : Nat} (hok : HostOk buflen (q + 1) h first)
    (ih : RestOk p lookfor buflen q h0) (hlt : next + 1 < p.length)
    (hx : readAnswer p lookfor tmp = readOther p next) :
    Ends p lookfor buflen h0 (.answers (q + 1) tmp h) ↔
      (p[next + 1]? = some 5 →
        NameIn p (next + 10) ∧ ∀ tmp name, decodeName p (next + 10) = .ok (some (tmp, name)) →
          AnswersOk p lookfor buflen q tmp h.cur first) := by
  obtain ⟨b, hbyte⟩ := exists_byte hlt
  rw [readOther, readByte_some hbyte] at hx
  dsimp only [bind, Except.bind] at hx
  by_cases h5 : b = 5
  swap
  · rw [if_neg h5] at hx
    refine iff_of_true (ends_stop (turn_last hx) (finishAnswers_fine hok)) fun h => ?_
    exact absurd (Option.some.inj (hbyte.symm.trans h)) h5
  subst h5
  rw [if_pos rfl] at hx
  cases hd : decodeName p (next + 10) with
  | error e =>
    rw [hd] at hx
    refine iff_of_false (not_ends_fault (turn_answers hx)) fun h => ?_
    obtain ⟨x, hx⟩ := decodeName_reads.mpr (h hbyte).1
    rw [hd] at hx
    cases hx
  | ok x =>
    have hin : NameIn p (next + 10) := decodeName_reads.mp ⟨x, hd⟩
    rw [hd] at hx
    cases x with
    | none =>
      exact iff_of_true (ends_stop (turn_last hx) (finishAnswers_fine hok)) fun _ => ⟨hin, nofun⟩
    | some x =>
      rw [ends_again (turn_cname hx), ih hok.weaken]
      constructor
      · rintro h -
        refine ⟨hin, ?_⟩
        rintro _ _ ⟨⟩
        exact h
      · exact fun h => (h hbyte).2 _ _ rfl

/-- The record of a name that was read. -/
theorem ends_record {name : List UInt8} {next : Nat} (hb : 145 ≤ buflen)
    (hok : HostOk buflen (q + 1) h first) (ih : RestOk p lookfor buflen q h0)
    (hd : decodeName p tmp = .ok (some (next, name))) (ht : TypeIn p lookfor next) :
    Ends p lookfor buflen h0 (.answers (q + 1) tmp h) ↔
      AnswersOk p lookfor buflen (q + 1) tmp h.cur first := by
  have hin : NameIn p tmp := decodeName_reads.mp ⟨_, hd⟩
  have hx := readAnswer_name lookfor hd
  rw [isEntry_in ht] at hx
  rw [AnswersOk]
  simp only [hd, hin, true_and, Except.ok.injEq, Option.some.injEq, Prod.mk.injEq]
  by_cases he : EntryAt p lookfor next
  · have hx : readAnswer p lookfor tmp = readEntry p lookfor name next := by
      rw [hx, decide_eq_true he]
      rfl
    by_cases hl : lookfor = .ptr
    · subst hl
      rw [ends_pointerRecord hb hok ih hx]
      constructor
      · rintro h _ _ ⟨rfl, rfl⟩
        exact ⟨ht, fun _ _ => h, fun _ hl => absurd rfl hl, fun hn => absurd he hn⟩
      · exact fun h => (h _ _ ⟨rfl, rfl⟩).2.1 he rfl
    · rw [readEntry, if_neg hl] at hx
      rw [ends_address hb hl hok ih hx]
      constructor
      · rintro h _ _ ⟨rfl, rfl⟩
        exact ⟨ht, fun _ hp => absurd hp hl, fun _ _ => h, fun hn => absurd he hn⟩
      · exact fun h => (h _ _ ⟨rfl, rfl⟩).2.2.1 he hl
  · have hx : readAnswer p lookfor tmp = readOther p next := by
      rw [hx, decide_eq_false he]
      rfl
    rw [ends_otherRecord hok ih ht.1 hx]
    constructor
    · rintro h _ _ ⟨rfl, rfl⟩
      exact ⟨ht, fun hp => absurd hp he, fun hp => absurd hp he, fun _ => h⟩
    · exact fun h => (h _ _ ⟨rfl, rfl⟩).2.2.2 he

/-- **The loop over the answers.** -/
theorem answers_ends (hb : 145 ≤ buflen) (hok : HostOk buflen q h first) :
    Ends p lookfor buflen h0 (.answers q tmp h) ↔
      AnswersOk p lookfor buflen q tmp h.cur first := by
  induction q generalizing tmp h first with
  | zero => exact iff_of_true (ends_stop rfl (finishAnswers_fine hok)) trivial
  | succ q ih =>
    cases hd : decodeName p tmp with
    | error e =>
      have hx : readAnswer p lookfor tmp = .error e := by
        rw [readAnswer, hd]
        rfl
      refine iff_of_false (not_ends_fault (turn_answers hx)) fun h => ?_
      obtain ⟨x, hx⟩ := decodeName_reads.mpr h.1
      rw [hd] at hx
      cases hx
    | ok x =>
      have hin : NameIn p tmp := decodeName_reads.mp ⟨x, hd⟩
      cases x with
      | none =>
        have hx : readAnswer p lookfor tmp = .ok .last := by
          rw [readAnswer, hd]
          rfl
        refine iff_of_true (ends_stop (turn_last hx) (finishAnswers_fine hok)) ⟨hin, ?_⟩
        intro next name hd'
        rw [hd] at hd'
        cases hd'
      | some x =>
        obtain ⟨next, name⟩ := x
        by_cases ht : TypeIn p lookfor next
        · exact ends_record hb hok (fun hok => ih hok) hd ht
        · refine iff_of_false ?_ fun h => ht (h.2 next name hd).1
          have hx := readAnswer_name lookfor hd
          rcases isEntry_out ht with he | ⟨he, hle⟩
          · rw [he] at hx
            exact not_ends_fault (turn_answers hx)
          · have ho : readOther p next = .error .read := by
              rw [readOther, readByte_behind hle]
              rfl
            rw [he] at hx
            exact not_ends_fault (turn_answers (hx.trans ho))

end

/-! ## Questions -/

/-- From a label length, which is a `char`, to where the next one is taken from. -/
def Jump (p : Packet) (i j : Int) : Prop :=
  ∃ b, readChar p i = .ok b ∧ b ≠ 0 ∧ j = i + schar b + 1

def Jumps (p : Packet) : Int → Int → Prop := ReflTransGen (Jump p)

/-- The `q` questions from `i` on: the jumps over the labels of each lead behind the message, which
ends the parsing, or to a zero, and `behind` holds of where the last question ends. -/
def QuestionsOk (p : Packet) (behind : Int → Prop) : Nat → Int → Prop
  | 0, i => i ≤ p.length → behind i
  | q + 1, i => i ≤ p.length →
    ∃ j, Jumps p i j ∧ (p.length < j ∨ readChar p j = .ok 0 ∧ QuestionsOk p behind q (j + 5))

/-- The reply is taken apart in bounds. -/
def ReplyOk (p : Packet) (lookfor : Lookfor) (buflen : Nat) : Prop :=
  5 < p.length ∧ QuestionsOk p
    (fun i => 7 < p.length ∧ AnswersOk p lookfor buflen
      (min (count (p.getD 6 0) (p.getD 7 0)) 8) i.toNat (18 * ptrSize) none)
    (count (p.getD 4 0) (p.getD 5 0)) 12

section

variable {p : Packet} {lookfor : Lookfor} {buflen q : Nat} {h0 : Host} {i : Int}

theorem readByte_getD {k : Nat} (h : k < p.length) : readByte p k = .ok (p.getD k 0) := by
  obtain ⟨b, hb⟩ := exists_byte h
  rw [readByte_some hb, List.getD_eq_getElem?_getD, hb]
  rfl

theorem turn_labels_fault {e : Fault} (hx : readChar p i = .error e) :
    gethostTurn p lookfor buflen h0 (.labels q i) = .fault e := by
  rw [gethostTurn, hx]
  rfl

theorem turn_labels_zero (hx : readChar p i = .ok 0) :
    gethostTurn p lookfor buflen h0 (.labels q i) = .again (.questions q (i + 5)) := by
  rw [gethostTurn, hx]
  rfl

theorem turn_labels_behind {b : UInt8} (hx : readChar p i = .ok b) (hb : b ≠ 0)
    (hlt : p.length < i + schar b + 1) :
    gethostTurn p lookfor buflen h0 (.labels q i) = .stop (invalidpacket h0) := by
  rw [gethostTurn, hx]
  dsimp only [bind, Except.bind]
  rw [if_neg hb, if_pos hlt]
  rfl

theorem turn_labels_jump {b : UInt8} (hx : readChar p i = .ok b) (hb : b ≠ 0)
    (hlt : ¬ p.length < i + schar b + 1) :
    gethostTurn p lookfor buflen h0 (.labels q i) = .again (.labels q (i + schar b + 1)) := by
  rw [gethostTurn, hx]
  dsimp only [bind, Except.bind]
  rw [if_neg hb, if_neg hlt]
  rfl

/-- A run through the labels of a question makes its jumps. -/
theorem jumps_of_run {n : Nat} {r : Reply} (hr : Fine r)
    (h : run (gethostTurn p lookfor buflen h0) n (.labels q i) = some (.ok r)) :
    ∃ j, Jumps p i j ∧ (p.length < j ∨
      readChar p j = .ok 0 ∧ Ends p lookfor buflen h0 (.questions q (j + 5))) := by
  induction n generalizing i with
  | zero => cases h
  | succ n ih =>
    cases hx : readChar p i with
    | error e =>
      rw [run_succ_fault (turn_labels_fault hx)] at h
      cases h
    | ok b =>
      by_cases hb : b = 0
      · subst hb
        rw [run_succ_again (turn_labels_zero hx)] at h
        exact ⟨i, .refl, .inr ⟨hx, r, ⟨n, h⟩, hr⟩⟩
      · have hj : Jump p i (i + schar b + 1) := ⟨b, hx, hb, rfl⟩
        by_cases hlt : p.length < i + schar b + 1
        · exact ⟨_, .single hj, .inl hlt⟩
        · rw [run_succ_again (turn_labels_jump hx hb hlt)] at h
          obtain ⟨j, hij, hend⟩ := ih h
          exact ⟨j, .head hj hij, hend⟩

/-- **The labels of a question.** -/
theorem ends_labels (hi : i ≤ p.length) :
    Ends p lookfor buflen h0 (.labels q i) ↔
      ∃ j, Jumps p i j ∧ (p.length < j ∨
        readChar p j = .ok 0 ∧ Ends p lookfor buflen h0 (.questions q (j + 5))) := by
  constructor
  · rintro ⟨r, ⟨n, h⟩, hr⟩
    exact jumps_of_run hr h
  · rintro ⟨j, hij, hend⟩
    induction hij using ReflTransGen.head_induction_on with
    | refl =>
      rcases hend with hlt | ⟨hx, hend⟩
      · omega
      · exact (ends_again (turn_labels_zero hx)).mpr hend
    | head hj _ ih =>
      obtain ⟨b, hx, hb, rfl⟩ := hj
      rename_i i _
      by_cases hlt : p.length < i + schar b + 1
      · exact ends_stop (turn_labels_behind hx hb hlt) (.inr rfl)
      · exact (ends_again (turn_labels_jump hx hb hlt)).mpr (ih (by omega))

theorem turn_questions_behind (hi : (p.length : Int) < i) :
    gethostTurn p lookfor buflen h0 (.questions q i) = .stop (invalidpacket h0) :=
  if_pos hi

theorem turn_questions_succ (hi : i ≤ (p.length : Int)) :
    gethostTurn p lookfor buflen h0 (.questions (q + 1) i) = .again (.labels q i) :=
  if_neg (Int.not_lt.mpr hi)

theorem turn_questions_zero (hi : i ≤ (p.length : Int)) :
    gethostTurn p lookfor buflen h0 (.questions 0 i) = orFault (countAnswers p h0 i) :=
  if_neg (Int.not_lt.mpr hi)

theorem countAnswers_behind (h : ¬ 7 < p.length) : countAnswers p h0 i = .error .read := by
  unfold countAnswers
  by_cases h6 : 6 < p.length
  · rw [readByte_getD h6, readByte_behind (Nat.le_of_not_lt h)]
    rfl
  · rw [readByte_behind (Nat.le_of_not_lt h6)]
    rfl

/-- Behind the questions the number of answers is read, and then the answers. -/
theorem ends_countAnswers (hb : 145 ≤ buflen) (hok : HostOk buflen 8 h0 none)
    (hi : i ≤ (p.length : Int)) :
    Ends p lookfor buflen h0 (.questions 0 i) ↔ 7 < p.length ∧ AnswersOk p lookfor buflen
      (min (count (p.getD 6 0) (p.getD 7 0)) 8) i.toNat h0.cur none := by
  have hturn : gethostTurn p lookfor buflen h0 (.questions 0 i) = _ := turn_questions_zero hi
  by_cases h7 : 7 < p.length
  swap
  · rw [countAnswers_behind h7] at hturn
    exact iff_of_false (not_ends_fault hturn) fun h => h7 h.1
  have hcount : countAnswers p h0 i = .ok (if count (p.getD 6 0) (p.getD 7 0) < 1 then
      .stop (nodata h0) else .again (.answers (min (count (p.getD 6 0) (p.getD 7 0)) 8) i.toNat h0))
      := by
    unfold countAnswers
    rw [readByte_getD (Nat.lt_of_succ_lt h7), readByte_getD h7]
    dsimp only [bind, Except.bind]
    split <;> rfl
  rw [hcount] at hturn
  generalize count (p.getD 6 0) (p.getD 7 0) = q at *
  rw [and_iff_right h7]
  by_cases hq : q < 1
  · rw [if_pos hq] at hturn
    have h0 : min q 8 = 0 := by omega
    rw [h0]
    exact iff_of_true (ends_stop hturn (.inr rfl)) trivial
  · rw [if_neg hq] at hturn
    rw [ends_again hturn]
    have hle := hok.ips_le
    exact answers_ends hb ⟨hok.names_le, by omega, hok.none_iff, hok.string⟩

theorem ends_behind {behind : Int → Prop} (hi : ¬ i ≤ (p.length : Int)) :
    Ends p lookfor buflen h0 (.questions q i) ↔ QuestionsOk p behind q i := by
  refine iff_of_true (ends_stop (turn_questions_behind (Int.lt_of_not_ge hi)) (.inr rfl)) ?_
  cases q <;> exact fun h => absurd h hi

/-- **The loop over the questions.** -/
theorem ends_questions {behind : Int → Prop}
    (h : ∀ i ≤ (p.length : Int), Ends p lookfor buflen h0 (.questions 0 i) ↔ behind i) :
    Ends p lookfor buflen h0 (.questions q i) ↔ QuestionsOk p behind q i := by
  induction q generalizing i with
  | zero =>
    by_cases hi : i ≤ p.length
    · exact (h i hi).trans ⟨fun h _ => h, fun h => h hi⟩
    · exact ends_behind hi
  | succ q ih =>
    by_cases hi : i ≤ p.length
    · rw [ends_again (turn_questions_succ hi), ends_labels hi]
      simp only [ih]
      exact ⟨fun h _ => h, fun h => h hi⟩
    · exact ends_behind hi

theorem turn_header (hb : 145 ≤ buflen) (h5 : 5 < p.length) :
    gethostTurn p lookfor buflen h0 .header =
      .again (.questions (count (p.getD 4 0) (p.getD 5 0)) 12) := by
  rw [gethostTurn, if_neg (by omega), readByte_getD (Nat.lt_of_succ_lt h5), readByte_getD h5]
  rfl

theorem turn_header_fault (hb : 145 ≤ buflen) (h5 : ¬ 5 < p.length) :
    gethostTurn p lookfor buflen h0 .header = .fault .read := by
  rw [gethostTurn, if_neg (by omega)]
  by_cases h4 : 4 < p.length
  · rw [readByte_getD h4, readByte_behind (Nat.le_of_not_lt h5)]
    rfl
  · rw [readByte_behind (Nat.le_of_not_lt h4)]
    rfl

/-- From the header on. -/
theorem ends_header (hb : 145 ≤ buflen) (hok : HostOk buflen 8 h0 none)
    (hcur : h0.cur = 18 * ptrSize) :
    Ends p lookfor buflen h0 .header ↔ ReplyOk p lookfor buflen := by
  unfold ReplyOk
  by_cases h5 : 5 < p.length
  · rw [ends_again (turn_header hb h5), and_iff_right h5, ← hcur]
    exact ends_questions fun i hi => ends_countAnswers hb hok hi
  · exact iff_of_false (not_ends_fault (turn_header_fault hb h5)) fun h => h5 h.1

theorem start_ok (mem : Mem) (hb : 145 ≤ buflen) :
    ∃ h, Host.start buflen mem = .ok h ∧ HostOk buflen 8 h none ∧ h.cur = 18 * ptrSize :=
  ⟨_, setAlias_ok hb (by decide), ⟨le_rfl, le_rfl, iff_of_true rfl rfl, nofun⟩, rfl⟩

end

/-- **What replies are taken apart in bounds**: for every reply, kind of record and buffer with
room for the tables and a byte, and whatever the buffer holds before. -/
theorem survives_iff (p : Packet) (lookfor : Lookfor) (buflen : Nat) (mem : Mem)
    (hb : 145 ≤ buflen) : Survives p lookfor buflen mem ↔ ReplyOk p lookfor buflen := by
  obtain ⟨h0, hstart, hok, hcur⟩ := start_ok mem hb
  rw [← ends_header hb hok hcur]
  constructor
  · rintro ⟨h, r, hs, hr, hfine⟩
    rw [hstart] at hs
    cases hs
    exact ⟨r, hr, hfine⟩
  · rintro ⟨r, hr, hfine⟩
    exact ⟨h0, r, hstart, hr, hfine⟩

/-- A header without questions and answers. -/
theorem survives_header :
    Survives [7, 7, 0x81, 0x80, 0, 0, 0, 0, 0, 0, 0, 0] .a 145 (fun _ => 0) ↔
      ReplyOk [7, 7, 0x81, 0x80, 0, 0, 0, 0, 0, 0, 0, 0] .a 145 :=
  survives_iff _ _ _ _ (by decide)

/-- A reply whose question starts with the byte 255. -/
def backLabel : Packet := [7, 7, 0x81, 0x80, 0, 1, 0, 1, 0, 0, 0, 0, 255, 0, 0, 1, 0, 1]

/-- A label length of 255 is -1 as a `char`, and the loop over the labels stays where it is. -/
theorem not_survives_backLabel : ¬ Survives backLabel .a 1000 fun _ => 0 := by
  rintro ⟨h, r, -, hr, -⟩
  rw [stops_again (turn_header (by decide) (by decide)),
    show count _ _ = 0 + 1 from by decide, stops_again (turn_questions_succ (by decide))] at hr
  have hlabels : gethostTurn backLabel .a 1000 h (.labels 0 12) =
      .again (.labels 0 (12 + schar 255 + 1)) := turn_labels_jump rfl (by decide) (by decide)
  rw [show (12 : Int) + schar 255 + 1 = 12 from by decide] at hlabels
  exact not_stops_self hlabels hr

end Dietlibc.Dns
