import Dietlibc.Base.Machine
import Dietlibc.Base.Mem
import Dietlibc.Dns.Query

/-!
# The client of the resolver

`res_query` without the multicast part. A round is one turn of its loop: it may send the packet
again, polls, and reads. What the clock, the network and the stack hold in each round is an
argument, so that a run of the machine is one course of events. `accepts_iff` says for which
courses only a matching reply is accepted: the buffer is looked at before the length, so a read
that fails or a datagram that is too short is accepted with the bytes that were there before.
-/

namespace Dietlibc.Dns

open Machine

/-! ## Events -/

/-- What the poll and the read behind it give. -/
inductive Received where
  | timeout
  | readError
  | datagram (d : List UInt8) (h : d.length ≤ 1500)

/-- What a round finds: the clock, whether `sendto` succeeds, and the bytes that are in `inpkg`
before the read. -/
structure Round where
  now : Int
  sendto : Bool
  received : Received
  stale : Mem

/-- `inpkg` after the read. -/
def Round.inpkg (r : Round) : Mem :=
  match r.received with
  | .datagram d _ => r.stale.store 0 d
  | _ => r.stale

/-- `len` -/
def Round.len (r : Round) : Int :=
  match r.received with
  | .datagram d _ => d.length
  | _ => -1

/-! ## The machine -/

/-- What does not change: the packet, `RES_RECURSE`, `WANT_IPV6_DNS`, the number of servers, and
the room of the caller. -/
structure Client where
  packet : List UInt8
  recurse : Bool
  ipv6 : Bool
  nscount : Nat
  anslen : Int

/-- The turns that are left, the server, the time of the last packet, the polls so far, and the
servers that a packet was sent to. -/
structure ClientSt where
  j : Nat
  i : Nat
  last : Int
  polls : Nat
  sends : List Nat

inductive HErrno where
  | hostNotFound
  | tryAgain
  | noRecovery
  deriving DecidableEq

/-- `-1` with an `h_errno`, or a length with the bytes of `answer`. -/
inductive Outcome where
  | failed (e : HErrno)
  | reply (len : Nat) (answer : List UInt8)

variable (q : Client)

/-- `if (now.tv_sec-last.tv_sec>10)` -/
def ClientSt.resends (s : ClientSt) (r : Round) : Bool := 10 < r.now - s.last

/-- The state at the poll. -/
def ClientSt.sent (s : ClientSt) (r : Round) : ClientSt where
  j := s.j - 1
  i := if q.nscount ≤ s.i + 1 then 0 else s.i + 1
  last := if s.resends r then r.now else s.last
  polls := s.polls + 1
  sends := if s.resends r then s.sends ++ [s.i] else s.sends

/-- `wrong ID` and `not answer` are the two reasons to go on. -/
def headerOk (r : Round) : Bool :=
  r.inpkg 0 == q.packet.getD 0 0 && r.inpkg 1 == q.packet.getD 1 0 &&
    r.inpkg 2 &&& 0xf9 == if q.recurse then 0x81 else 0x80

/-- Behind the poll. The copy of a negative length does not end. -/
def parseAnswer (r : Round) (s : ClientSt) : Next ClientSt (Outcome × ClientSt) Unit :=
  if !headerOk q r then .again s
  else if r.inpkg 3 &&& 0x0f ≠ 0 then .stop (.failed .hostNotFound, s)
  else if q.anslen < r.len then .stop (.failed .noRecovery, s)
  else if r.len < 0 then .fault ()
  else .stop (.reply r.len.toNat (r.inpkg.load 0 r.len.toNat), s)

/-- A turn of the loop. With `WANT_IPV6_DNS` it ends at a packet that cannot be sent. -/
def clientStep (rounds : Nat → Round) (s : ClientSt) : Next ClientSt (Outcome × ClientSt) Unit :=
  if s.j = 0 then .stop (.failed .tryAgain, s)
  else
    let r := rounds s.polls
    if s.resends r ∧ q.ipv6 ∧ !r.sendto then .stop (.failed .hostNotFound, s)
    else
      match r.received with
      | .timeout => .again (s.sent q r)
      | _ => parseAnswer q r (s.sent q r)

/-- `j=20` -/
def clientStart : ClientSt := ⟨20, 0, 0, 0, []⟩

/-- The arguments of `res_query`, and what else it depends on; `stack` is in `packet` before
`res_mkquery`. -/
structure Lookup where
  dname : List UInt8
  cls : Int
  type : Int
  anslen : Int
  rand : Nat
  recurse : Bool
  ipv6 : Bool
  nscount : Nat
  stack : Mem

/-- The query, if there is one. -/
def Lookup.client (l : Lookup) : Option Client :=
  (resMkquery l.rand l.recurse 0 l.dname l.cls l.type 512 l.stack).map fun packet =>
    ⟨packet, l.recurse, l.ipv6, l.nscount, l.anslen⟩

/-- `res_query` ends with an outcome after some polls. -/
def resQuery (l : Lookup) (rounds : Nat → Round) (o : Outcome) (polls : Nat) : Prop :=
  match l.client with
  | none => o = .failed .noRecovery ∧ polls = 0
  | some q => ∃ s, Stops (clientStep q rounds) clientStart (o, s) ∧ s.polls = polls

/-! ## The claim -/

/-- A datagram that answers the query. -/
structure Answers (packet d : List UInt8) : Prop where
  long : 12 ≤ d.length
  id : d.getD 0 0 = packet.getD 0 0 ∧ d.getD 1 0 = packet.getD 1 0
  isReply : d.getD 2 0 &&& 0x80 ≠ 0
  rcode : d.getD 3 0 &&& 0x0f = 0

/-- The call ends after 20 polls at most, and gives a copy of a datagram of this call that answers
the query, or fails. -/
def AcceptsMatching (l : Lookup) (rounds : Nat → Round) : Prop :=
  (∃ o polls, resQuery l rounds o polls) ∧
    ∀ o polls, resQuery l rounds o polls → polls ≤ 20 ∧
      ∀ n answer, o = .reply n answer → (n : Int) ≤ l.anslen ∧ answer.length = n ∧
        ∃ q k h, l.client = some q ∧ k < polls ∧ (rounds k).received = .datagram answer h ∧
          Answers q.packet answer

/-- The round is one whose bytes pass for a reply that fits, and the read has failed or given
fewer bytes than a header. -/
structure Undersized (r : Round) (s : ClientSt) : Prop where
  sendto : ¬ (s.resends r ∧ q.ipv6 ∧ !r.sendto)
  read : r.received ≠ .timeout
  header : headerOk q r = true
  rcode : r.inpkg 3 &&& 0x0f = 0
  room : r.len ≤ q.anslen
  short : r.len < 12

/-! ## Steps -/

variable {q} {rounds : Nat → Round} {r : Round} {s s' : ClientSt} {o : Outcome} {l : Lookup}

/-- What a step does. -/
inductive ClientEnd (q : Client) (rounds : Nat → Round) (s : ClientSt) :
    Next ClientSt (Outcome × ClientSt) Unit → Prop where
  | again (hj : s.j ≠ 0) : ClientEnd q rounds s (.again (s.sent q (rounds s.polls)))
  | failed (e : HErrno) (s' : ClientSt) (h : s' = s ∨ s.j ≠ 0 ∧ s' = s.sent q (rounds s.polls)) :
      ClientEnd q rounds s (.stop (.failed e, s'))
  | short (hj : s.j ≠ 0) (h : Undersized q (rounds s.polls) s) (hlen : (rounds s.polls).len < 0) :
      ClientEnd q rounds s (.fault ())
  | reply (hj : s.j ≠ 0)
      (hsend : ¬ (s.resends (rounds s.polls) ∧ q.ipv6 ∧ !(rounds s.polls).sendto))
      (hread : (rounds s.polls).received ≠ .timeout)
      (hheader : headerOk q (rounds s.polls) = true) (hrcode : (rounds s.polls).inpkg 3 &&& 0x0f = 0)
      (hroom : (rounds s.polls).len ≤ q.anslen) (hlen : 0 ≤ (rounds s.polls).len) :
      ClientEnd q rounds s (.stop (.reply (rounds s.polls).len.toNat
        ((rounds s.polls).inpkg.load 0 (rounds s.polls).len.toNat), s.sent q (rounds s.polls)))

theorem clientStep_parse (hj : s.j ≠ 0)
    (hsend : ¬ (s.resends (rounds s.polls) ∧ q.ipv6 ∧ !(rounds s.polls).sendto))
    (hread : (rounds s.polls).received ≠ .timeout) :
    clientStep q rounds s = parseAnswer q (rounds s.polls) (s.sent q (rounds s.polls)) := by
  unfold clientStep
  rw [if_neg hj]
  dsimp only
  rw [if_neg hsend]
  split
  · exact absurd ‹_› hread
  · rfl

theorem clientStep_end (q : Client) (rounds : Nat → Round) (s : ClientSt) :
    ClientEnd q rounds s (clientStep q rounds s) := by
  by_cases hj : s.j = 0
  · unfold clientStep
    rw [if_pos hj]
    exact .failed _ _ (.inl rfl)
  by_cases hsend : s.resends (rounds s.polls) ∧ q.ipv6 ∧ !(rounds s.polls).sendto
  · unfold clientStep
    rw [if_neg hj]
    dsimp only
    rw [if_pos hsend]
    exact .failed _ _ (.inl rfl)
  by_cases hread : (rounds s.polls).received = .timeout
  · unfold clientStep
    rw [if_neg hj]
    dsimp only
    rw [if_neg hsend, hread]
    exact .again hj
  rw [clientStep_parse hj hsend hread]
  unfold parseAnswer
  split
  · exact .again hj
  · rename_i hheader
    have hheader : headerOk q (rounds s.polls) = true := by simpa using hheader
    split
    · exact .failed _ _ (.inr ⟨hj, rfl⟩)
    · rename_i hrcode
      have hrcode := not_not.mp hrcode
      split
      · exact .failed _ _ (.inr ⟨hj, rfl⟩)
      · rename_i hroom
        have hroom := Int.not_lt.mp hroom
        split
        · rename_i hlen
          exact .short hj ⟨hsend, hread, hheader, hrcode, hroom, by omega⟩ hlen
        · exact .reply hj hsend hread hheader hrcode hroom (by omega)

/-- The polls and the turns that are left add up to 20. -/
def Counted (s : ClientSt) : Prop := s.polls + s.j = 20

theorem counted_again (hs : Counted s) (h : clientStep q rounds s = .again s') :
    Counted s' ∧ s'.j < s.j := by
  have hend := clientStep_end q rounds s
  rw [h] at hend
  cases hend with
  | again hj =>
    unfold Counted at hs ⊢
    simp only [ClientSt.sent]
    omega

/-- The bytes of a datagram are the first ones of the buffer. -/
theorem inpkg_datagram {d : List UInt8} {hd : d.length ≤ 1500} (h : r.received = .datagram d hd) :
    r.len = d.length ∧ r.inpkg = r.stale.store 0 d := by
  unfold Round.len Round.inpkg
  rw [h]
  exact ⟨rfl, rfl⟩

theorem received_of_len (hlen : 0 ≤ r.len) : ∃ d hd, r.received = .datagram d hd := by
  unfold Round.len at hlen
  split at hlen
  · exact ⟨_, _, ‹_›⟩
  · omega

/-- A datagram of 12 bytes at least that passes the tests answers the query. -/
theorem answers_of_header {d : List UInt8} {hd : d.length ≤ 1500} (h : r.received = .datagram d hd)
    (hlong : 12 ≤ d.length) (hheader : headerOk q r = true) (hrcode : r.inpkg 3 &&& 0x0f = 0) :
    Answers q.packet d := by
  have hbyte {i : Nat} (hi : i < 12) : r.inpkg i = d.getD i 0 := by
    have hin := Mem.store_in (m := r.stale) (a := 0) (d := d) (i := i) (by omega)
    rwa [Nat.zero_add, ← (inpkg_datagram h).2] at hin
  unfold headerOk at hheader
  rw [Bool.and_eq_true, Bool.and_eq_true, beq_iff_eq, beq_iff_eq, beq_iff_eq,
    hbyte (by omega), hbyte (by omega), hbyte (by omega)] at hheader
  rw [hbyte (by omega)] at hrcode
  refine ⟨hlong, hheader.1, fun hzero => ?_, hrcode⟩
  have hflag : (d.getD 2 0 &&& 0xf9) &&& 0x80 = 0 := by
    rw [UInt8.and_assoc, show (0xf9 : UInt8) &&& 0x80 = 0x80 from rfl, hzero]
  rw [hheader.2] at hflag
  cases hr : q.recurse with
  | true =>
    rw [hr] at hflag
    exact absurd hflag (by decide)
  | false =>
    rw [hr] at hflag
    exact absurd hflag (by decide)

/-! ## Runs -/

theorem resQuery_none (h : l.client = none) {polls : Nat} :
    resQuery l rounds o polls ↔ o = .failed .noRecovery ∧ polls = 0 := by
  unfold resQuery
  rw [h]

theorem resQuery_some (h : l.client = some q) {polls : Nat} :
    resQuery l rounds o polls ↔
      ∃ s, Stops (clientStep q rounds) clientStart (o, s) ∧ s.polls = polls := by
  unfold resQuery
  rw [h]

/-- The copy of a negative length. -/
def Faults (q : Client) (rounds : Nat → Round) (s : ClientSt) : Prop :=
  clientStep q rounds s = .fault ()

/-- A client that meets no fault comes to its end. -/
theorem client_ends (h : ∀ s, Meets (clientStep q rounds) clientStart s → ¬ Faults q rounds s) :
    ∃ r, Stops (clientStep q rounds) clientStart r := by
  have hgo s (hs : Counted s) (hfault : ¬ Faults q rounds s) :
      (∃ r, clientStep q rounds s = .stop r) ∨
        ∃ s', clientStep q rounds s = .again s' ∧ s'.j < s.j := by
    cases hstep : clientStep q rounds s with
    | again s' => exact .inr ⟨s', rfl, (counted_again hs hstep).2⟩
    | stop r => exact .inl ⟨r, rfl⟩
    | fault e => exact absurd hstep hfault
  have hstuck s (_ : Counted s) (hfault : Faults q rounds s) r :
      ¬ Stops (clientStep q rounds) s r := not_stops_fault hfault
  exact (stops_iff_not_stuck (measure ClientSt.j).wf
    (fun s s' hs hstep => (counted_again hs hstep).1) hgo hstuck
    (show Counted clientStart from rfl)).mpr h

theorem client_anslen (h : l.client = some q) : q.anslen = l.anslen := by
  unfold Lookup.client at h
  obtain ⟨packet, -, rfl⟩ := Option.map_eq_some_iff.mp h
  rfl

/-- **Only a matching reply is accepted** in the courses of events without a round whose bytes pass
for a reply that fits while the read has failed or given fewer than 12 bytes. -/
theorem accepts_iff (l : Lookup) (rounds : Nat → Round) :
    AcceptsMatching l rounds ↔
      ∀ q s, l.client = some q → Meets (clientStep q rounds) clientStart s → s.j ≠ 0 →
        ¬ Undersized q (rounds s.polls) s := by
  cases hq : l.client with
  | none =>
    refine ⟨fun _ => nofun, fun _ => ⟨⟨_, _, (resQuery_none hq).mpr ⟨rfl, rfl⟩⟩, ?_⟩⟩
    intro o polls h
    obtain ⟨rfl, rfl⟩ := (resQuery_none hq).mp h
    exact ⟨by omega, nofun⟩
  | some q =>
    constructor
    · rintro ⟨⟨o, polls, hret⟩, h⟩ q' s ⟨⟩ hmeets hj hs
      have hparse := clientStep_parse hj hs.sendto hs.read
      unfold parseAnswer at hparse
      rw [hs.header, Bool.not_true, if_neg Bool.false_ne_true, if_neg (not_not.mpr hs.rcode),
        if_neg (Int.not_lt.mpr hs.room)] at hparse
      by_cases hlen : (rounds s.polls).len < 0
      · rw [if_pos hlen] at hparse
        obtain ⟨s', hstops, -⟩ := (resQuery_some hq).mp hret
        exact not_stops_fault hparse (hmeets.stops.mp hstops)
      · rw [if_neg hlen] at hparse
        have hstops := hmeets.stops.mpr ((stops_stop hparse).mpr rfl)
        obtain ⟨-, hreply⟩ := h _ _ ((resQuery_some hq).mpr ⟨_, hstops, rfl⟩)
        obtain ⟨-, hn, q', k, hd, -, -, -, hans⟩ := hreply _ _ rfl
        have hlong := hans.long
        have hshort := hs.short
        omega
    · intro h
      have hfault s (hmeets : Meets (clientStep q rounds) clientStart s) :
          ¬ Faults q rounds s := by
        intro hstep
        unfold Faults at hstep
        have hend := clientStep_end q rounds s
        rw [hstep] at hend
        cases hend with
        | short hj hs hlen => exact h q s rfl hmeets hj hs
      refine ⟨?_, fun o polls hret => ?_⟩
      · obtain ⟨⟨o, s⟩, hstops⟩ := client_ends hfault
        exact ⟨o, s.polls, (resQuery_some hq).mpr ⟨s, hstops, rfl⟩⟩
      · obtain ⟨s, hstops, rfl⟩ := (resQuery_some hq).mp hret
        obtain ⟨s', ⟨hmeets, hcount⟩, hstep⟩ := hstops.last
          (I := fun s => Meets (clientStep q rounds) clientStart s ∧ Counted s)
          (fun s1 s2 hs hstep => ⟨hs.1.trans (.step hstep (.refl _)), (counted_again hs.2 hstep).1⟩)
          ⟨.refl _, rfl⟩
        have hend := clientStep_end q rounds s'
        rw [hstep] at hend
        unfold Counted at hcount
        cases hend with
        | failed e _ hs =>
          refine ⟨?_, nofun⟩
          rcases hs with rfl | ⟨hj, rfl⟩
          · omega
          · simp only [ClientSt.sent]
            omega
        | reply hj hsend hread hheader hrcode hroom hlen =>
          have hpolls : (s'.sent q (rounds s'.polls)).polls = s'.polls + 1 := rfl
          refine ⟨by omega, ?_⟩
          rintro n answer ⟨⟩
          obtain ⟨d, hd, hrec⟩ := received_of_len hlen
          obtain ⟨hlen', hbuf⟩ := inpkg_datagram hrec
          have hnat : (rounds s'.polls).len.toNat = d.length := by omega
          have hlong : 12 ≤ d.length := by
            by_contra hshort
            exact h q s' rfl hmeets hj ⟨hsend, hread, hheader, hrcode, hroom, by omega⟩
          have hcopy : (rounds s'.polls).inpkg.load 0 (rounds s'.polls).len.toNat = d := by
            rw [hbuf, Mem.load_store_self hnat.symm]
          rw [hcopy]
          exact ⟨by rw [← client_anslen hq]; omega, hnat.symm, q, s'.polls, hd, hq, by omega, hrec,
            answers_of_header hrec hlong hheader hrcode⟩

/-- A lookup of the name `a`, with the identifier `0x1234`. -/
def lookupA : Lookup := ⟨[97], 1, 1, 512, 0x1234, true, true, 1, fun _ => 0⟩

/-- In the first round a datagram of four bytes comes. -/
def fourBytes : Nat → Round := fun _ => ⟨100, true, .datagram [0x34, 0x12, 0x81, 0x80] (by decide),
  fun _ => 0⟩

/-- The datagram of four bytes is accepted. -/
theorem fourBytes_accepted :
    resQuery lookupA fourBytes (.reply 4 [0x34, 0x12, 0x81, 0x80]) 1 ∧
      ¬ AcceptsMatching lookupA fourBytes := by
  have hclient : ∃ q, lookupA.client = some q ∧
      clientStep q fourBytes clientStart =
        .stop (.reply 4 [0x34, 0x12, 0x81, 0x80], ⟨19, 0, 100, 1, [0]⟩) := by
    unfold Lookup.client resMkquery
    rw [nameLoop]
    exact ⟨_, rfl, rfl⟩
  obtain ⟨q, hq, hstep⟩ := hclient
  have hret : resQuery lookupA fourBytes (.reply 4 [0x34, 0x12, 0x81, 0x80]) 1 :=
    (resQuery_some hq).mpr ⟨_, (stops_stop hstep).mpr rfl, rfl⟩
  refine ⟨hret, fun h => ?_⟩
  obtain ⟨-, -, q', k, hd, -, -, -, hans⟩ := (h.2 _ _ hret).2 _ _ rfl
  exact absurd hans.long (by decide)

end Dietlibc.Dns
