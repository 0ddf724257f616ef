import Dietlibc.Rpc.Xdr
import Mathlib.Data.Nat.Bitwise
import Mathlib.Tactic

/-!
# Records over a byte stream

The stream of `xdr_rec.c`. A record is sent as fragments, each with a header that holds its length and
says whether it is the last of its record. The writer fills one buffer, which may hold several records
that wait to be sent; the reader takes what the network brings, in pieces of any size.
-/

namespace Dietlibc.Rpc

open CInt Inet

/-! ## Fragments -/

/-- A fragment: whether it is the last of its record, and its bytes. -/
abbrev Frag := Bool × List UInt8

/-- `LAST_FRAG`, of a header of 32 bits. -/
def lastFragBit : Nat := 2 ^ 31

/-- `htonl(len | eormask)`. -/
def fragHeader (last : Bool) (len : Nat) : List UInt8 :=
  htonl ((if last then len ||| lastFragBit else len) % 2 ^ 32)

def fragEnc (f : Frag) : List UInt8 := fragHeader f.1 f.2.length ++ f.2

/-- Fragments as they are on the wire. -/
def wireOf (fs : List Frag) : List UInt8 := fs.flatMap fragEnc

/-- The records that fragments make, and the bytes of the record that is not at its end. -/
def split : List Frag → List (List UInt8) × List UInt8
  | [] => ([], [])
  | (true, b) :: fs => (b :: (split fs).1, (split fs).2)
  | (false, b) :: fs =>
    match split fs with
    | ([], o) => ([], b ++ o)
    | (r :: rs, o) => ((b ++ r) :: rs, o)

/-- A fragment that a reader takes: its length has 31 bits, and if it is empty it is the last. -/
def Frag.Sound (f : Frag) : Prop := f.2.length < 2 ^ 31 ∧ (f.1 = false → f.2 ≠ [])

theorem split_append_last (fs : List Frag) (b : List UInt8) :
    split (fs ++ [(true, b)]) = ((split fs).1 ++ [(split fs).2 ++ b], []) := by
  induction fs with
  | nil => rfl
  | cons f fs ih =>
    obtain ⟨_ | _, c⟩ := f
    · rcases hs : split fs with ⟨_ | ⟨r, rs⟩, o⟩ <;> simp [split, ih, hs]
    · simp [split, ih]

theorem split_append_part (fs : List Frag) (b : List UInt8) :
    split (fs ++ [(false, b)]) = ((split fs).1, (split fs).2 ++ b) := by
  induction fs with
  | nil => simp [split]
  | cons f fs ih =>
    obtain ⟨_ | _, c⟩ := f
    · rcases hs : split fs with ⟨_ | ⟨r, rs⟩, o⟩ <;> simp [split, ih, hs]
    · simp [split, ih]

@[simp] theorem wireOf_nil : wireOf [] = [] := rfl

@[simp] theorem wireOf_cons (f : Frag) (fs : List Frag) : wireOf (f :: fs) = fragEnc f ++ wireOf fs :=
  List.flatMap_cons

theorem wireOf_append (fs fs' : List Frag) : wireOf (fs ++ fs') = wireOf fs ++ wireOf fs' :=
  List.flatMap_append

theorem length_fragHeader (last : Bool) (len : Nat) : (fragHeader last len).length = 4 := rfl

theorem fragHeader_eq {last : Bool} {len : Nat} (h : len < 2 ^ 31) :
    ntohl (fragHeader last len) = len + if last then 2 ^ 31 else 0 := by
  cases last with
  | false =>
    simp only [fragHeader, Bool.false_eq_true, if_false]
    rw [ntohl_htonl (by omega)]
    omega
  | true =>
    have hor : len ||| lastFragBit = len + 2 ^ 31 := by
      have := Nat.two_pow_add_eq_or_of_lt h 1
      rw [Nat.mul_one] at this
      rw [lastFragBit, Nat.or_comm, ← this, Nat.add_comm]
    simp only [fragHeader, if_true, hor]
    rw [ntohl_htonl (by omega)]
    omega

theorem fragHeader_and_mask {last : Bool} {len : Nat} (h : len < 2 ^ 31) :
    ntohl (fragHeader last len) &&& (lastFragBit - 1) = len := by
  rw [fragHeader_eq h, lastFragBit, Nat.and_two_pow_sub_one_eq_mod]
  split <;> omega

theorem fragHeader_and_bit {last : Bool} {len : Nat} (h : len < 2 ^ 31) :
    decide (ntohl (fragHeader last len) &&& lastFragBit ≠ 0) = last := by
  rw [fragHeader_eq h, lastFragBit, Nat.and_two_pow, Nat.testBit_eq_decide_div_mod_eq]
  have hdiv : (len + if last then 2 ^ 31 else 0) / 2 ^ 31 = if last then 1 else 0 := by
    split <;> omega
  rw [hdiv]
  cases last <;> rfl

/-! ## The reader -/

/-- The half of `RECSTREAM` that reads. `buf` is what lies from `in_finger` to `in_boundry`, whose
offset from `in_base`, at a multiple of four, is `boundary`. The network brings `net`, and in answer to
a request a number of bytes that `arrives` chooses. -/
structure Reader where
  inSize : Nat
  large : 4 ≤ inSize
  boundary : Nat
  buf : List UInt8
  net : List UInt8
  calls : Nat
  arrives : Nat → Nat
  fbtbc : Nat
  lastFrag : Bool

namespace Reader

/-- `readit`: something, but no more than was asked for, or an error at the end of the connection. -/
def readit (r : Reader) (len : Nat) : Option (List UInt8) × Reader :=
  if r.net = [] then (none, { r with calls := r.calls + 1 })
  else
    let n := min (r.arrives r.calls + 1) len
    (some (r.net.take n), { r with calls := r.calls + 1, net := r.net.drop n })

def fillInputBuf (r : Reader) : Bool × Reader :=
  let i := r.boundary % 4
  match r.readit (r.inSize - i) with
  | (none, r') => (false, r')
  | (some got, r') => (true, { r' with buf := got, boundary := i + got.length })

/-- What is still to come. -/
def pending (r : Reader) : List UInt8 := r.buf ++ r.net

@[simp] theorem pending_fbtbc (r : Reader) (n : Nat) :
    ({ r with fbtbc := n } : Reader).pending = r.pending := rfl

/-- The fields that the buffer does not touch are as they were. -/
def SameFrag (r r' : Reader) : Prop := r'.fbtbc = r.fbtbc ∧ r'.lastFrag = r.lastFrag

theorem fillInputBuf_false {r r' : Reader} (hbuf : r.buf = []) (h : r.fillInputBuf = (false, r')) :
    r.pending = [] ∧ SameFrag r r' := by
  by_cases hnet : r.net = []
  · simp only [fillInputBuf, readit, if_pos hnet] at h
    cases h
    exact ⟨by rw [pending, hbuf, hnet]; rfl, rfl, rfl⟩
  · simp only [fillInputBuf, readit, if_neg hnet] at h
    cases h

theorem fillInputBuf_true {r r' : Reader} (hbuf : r.buf = []) (h : r.fillInputBuf = (true, r')) :
    r'.pending = r.pending ∧ r'.net.length < r.net.length ∧ SameFrag r r' := by
  by_cases hnet : r.net = []
  · simp only [fillInputBuf, readit, if_pos hnet] at h
    cases h
  · have hpos : 0 < r.net.length := List.length_pos_iff.mpr hnet
    have hlarge := r.large
    simp only [fillInputBuf, readit, if_neg hnet] at h
    cases h
    refine ⟨?_, ?_, rfl, rfl⟩
    · simp only [pending, hbuf, List.nil_append, List.take_append_drop]
    · simp only [List.length_drop]
      omega

/-- The loop of `get_input_bytes`, with the bytes that it has copied. -/
def getInputBytes (len : Nat) (r : Reader) : Bool × List UInt8 × Reader :=
  if len = 0 then (true, [], r)
  else if r.buf = [] then
    match _h : r.fillInputBuf with
    | (false, r') => (false, [], r')
    | (true, r') => getInputBytes len r'
  else
    let current := min len r.buf.length
    let rest := getInputBytes (len - current) { r with buf := r.buf.drop current }
    (rest.1, r.buf.take current ++ rest.2.1, rest.2.2)
termination_by len + r.net.length
decreasing_by
  · have := (fillInputBuf_true ‹_› _h).2.1
    omega
  · have : 0 < r.buf.length := List.length_pos_iff.mpr ‹_›
    omega

def skipInputBytes (cnt : Nat) (r : Reader) : Bool × Reader :=
  if cnt = 0 then (true, r)
  else if r.buf = [] then
    match _h : r.fillInputBuf with
    | (false, r') => (false, r')
    | (true, r') => skipInputBytes cnt r'
  else
    let current := min cnt r.buf.length
    skipInputBytes (cnt - current) { r with buf := r.buf.drop current }
termination_by cnt + r.net.length
decreasing_by
  · have := (fillInputBuf_true ‹_› _h).2.1
    omega
  · have : 0 < r.buf.length := List.length_pos_iff.mpr ‹_›
    omega

def setInputFragment (r : Reader) : Bool × Reader :=
  match r.getInputBytes 4 with
  | (false, _, r') => (false, r')
  | (true, b, r') =>
    let header := ntohl b
    let r'' := { r' with lastFrag := decide (header &&& lastFragBit ≠ 0) }
    if header = 0 then (false, r'')
    else (true, { r'' with fbtbc := header &&& (lastFragBit - 1) })

theorem SameFrag.trans {r r' r'' : Reader} (h : SameFrag r r') (h' : SameFrag r' r'') :
    SameFrag r r'' := ⟨h'.1.trans h.1, h'.2.trans h.2⟩

/-- A reader that has taken `n` bytes, if there are as many, and otherwise has failed. -/
def Takes (n : Nat) (r : Reader) (ok : Bool) (r' : Reader) : Prop :=
  SameFrag r r' ∧ (ok = true ↔ n ≤ r.pending.length) ∧ (ok = true → r'.pending = r.pending.drop n)

theorem takes_zero (r : Reader) : Takes 0 r true r :=
  ⟨⟨rfl, rfl⟩, iff_of_true rfl (Nat.zero_le _), fun _ => rfl⟩

/-- The buffer is empty and nothing comes. -/
theorem Takes.of_end {n : Nat} (hn : n ≠ 0) {r r' : Reader} (hend : r.pending = [])
    (hsame : SameFrag r r') : Takes n r false r' :=
  ⟨hsame, iff_of_false Bool.false_ne_true (by rw [hend]; simpa), nofun⟩

theorem Takes.of_fill {n : Nat} {r r₁ r' : Reader} {ok : Bool} (hpending : r₁.pending = r.pending)
    (hsame : SameFrag r r₁) (h : Takes n r₁ ok r') : Takes n r ok r' := by
  obtain ⟨hsame', hiff, hrest⟩ := h
  rw [hpending] at hiff hrest
  exact ⟨hsame.trans hsame', hiff, hrest⟩

theorem pending_drop {r : Reader} {m : Nat} (hm : m ≤ r.buf.length) :
    ({ r with buf := r.buf.drop m } : Reader).pending = r.pending.drop m := by
  simp only [pending]
  rw [List.drop_append_of_le_length hm]

/-- What is in the buffer is taken first. -/
theorem Takes.of_buf {n m : Nat} {r r' : Reader} {ok : Bool} (hm : m ≤ r.buf.length) (hmn : m ≤ n)
    (h : Takes (n - m) { r with buf := r.buf.drop m } ok r') : Takes n r ok r' := by
  obtain ⟨hsame, hiff, hrest⟩ := h
  have hpending := pending_drop hm
  have hlen : r.buf.length ≤ r.pending.length := by
    rw [pending, List.length_append]
    omega
  rw [hpending, List.length_drop] at hiff
  refine ⟨hsame, hiff.trans (by omega), fun hok => ?_⟩
  rw [hrest hok, hpending, List.drop_drop]
  congr 1
  omega

/-- What has been taken is no longer to come. -/
theorem Takes.length {n : Nat} {r r' : Reader} (h : Takes n r true r') :
    r'.pending.length + n = r.pending.length := by
  obtain ⟨_, hiff, hrest⟩ := h
  have hle := hiff.mp rfl
  rw [hrest rfl, List.length_drop]
  omega

theorem getInputBytes_spec (len : Nat) (r : Reader) :
    ∃ ok got r', r.getInputBytes len = (ok, got, r') ∧ Takes len r ok r' ∧
      (ok = true → got = r.pending.take len) := by
  induction len, r using getInputBytes.induct with
  | case1 r => exact ⟨true, [], r, by rw [getInputBytes, if_pos rfl], takes_zero r, fun _ => rfl⟩
  | case2 len r h0 hbuf r' hfill =>
    obtain ⟨hend, hsame⟩ := fillInputBuf_false hbuf hfill
    refine ⟨false, [], r', ?_, .of_end h0 hend hsame, nofun⟩
    rw [getInputBytes, if_neg h0, if_pos hbuf]
    split <;> simp_all
  | case3 len r h0 hbuf r' hfill ih =>
    obtain ⟨hpending, _, hsame⟩ := fillInputBuf_true hbuf hfill
    obtain ⟨ok, got, r'', hget, htakes, hgot⟩ := ih
    refine ⟨ok, got, r'', ?_, htakes.of_fill hpending hsame, hpending ▸ hgot⟩
    rw [getInputBytes, if_neg h0, if_pos hbuf]
    split <;> simp_all
  | case4 len r h0 hbuf current ih =>
    obtain ⟨ok, got, r', hget, htakes, hgot⟩ := ih
    have hcur : current ≤ r.buf.length := Nat.min_le_right _ _
    have hle : current ≤ len := Nat.min_le_left _ _
    refine ⟨ok, r.buf.take current ++ got, r', ?_, htakes.of_buf hcur hle, fun hok => ?_⟩
    · rw [getInputBytes, if_neg h0, if_neg hbuf]
      simp only [current] at hget ⊢
      rw [hget]
    · have htake : r.pending.take current = r.buf.take current := List.take_append_of_le_length hcur
      rw [hgot hok, pending_drop hcur, ← htake, ← List.take_add, Nat.add_sub_cancel' hle]

theorem skipInputBytes_spec (cnt : Nat) (r : Reader) :
    ∃ ok r', r.skipInputBytes cnt = (ok, r') ∧ Takes cnt r ok r' := by
  induction cnt, r using skipInputBytes.induct with
  | case1 r => exact ⟨true, r, by rw [skipInputBytes, if_pos rfl], takes_zero r⟩
  | case2 cnt r h0 hbuf r' hfill =>
    obtain ⟨hend, hsame⟩ := fillInputBuf_false hbuf hfill
    refine ⟨false, r', ?_, .of_end h0 hend hsame⟩
    rw [skipInputBytes, if_neg h0, if_pos hbuf]
    split <;> simp_all
  | case3 cnt r h0 hbuf r' hfill ih =>
    obtain ⟨hpending, _, hsame⟩ := fillInputBuf_true hbuf hfill
    obtain ⟨ok, r'', hskip, htakes⟩ := ih
    refine ⟨ok, r'', ?_, htakes.of_fill hpending hsame⟩
    rw [skipInputBytes, if_neg h0, if_pos hbuf]
    split <;> simp_all
  | case4 cnt r h0 hbuf current ih =>
    obtain ⟨ok, r', hskip, htakes⟩ := ih
    refine ⟨ok, r', ?_, htakes.of_buf (Nat.min_le_right _ _) (Nat.min_le_left _ _)⟩
    rw [skipInputBytes, if_neg h0, if_neg hbuf]
    exact hskip

theorem getInputBytes_takes {n : Nat} {r r' : Reader} {got : List UInt8}
    (h : r.getInputBytes n = (true, got, r')) : Takes n r true r' ∧ got = r.pending.take n := by
  obtain ⟨ok, got', r₁, hget, htakes, hgot⟩ := r.getInputBytes_spec n
  rw [h] at hget
  cases hget
  exact ⟨htakes, hgot rfl⟩

theorem skipInputBytes_takes {n : Nat} {r r' : Reader} (h : r.skipInputBytes n = (true, r')) :
    Takes n r true r' := by
  obtain ⟨ok, r₁, hskip, htakes⟩ := r.skipInputBytes_spec n
  rw [h] at hskip
  cases hskip
  exact htakes

/-- A header in front of what comes. -/
theorem setInputFragment_spec {r : Reader} {f : Frag} {rest : List UInt8} (hf : f.Sound)
    (h : r.pending = fragEnc f ++ rest) :
    ∃ r', r.setInputFragment = (true, r') ∧ r'.pending = f.2 ++ rest ∧ r'.fbtbc = f.2.length ∧
      r'.lastFrag = f.1 := by
  obtain ⟨hlen, hpart⟩ := hf
  obtain ⟨ok, got, r', hget, ⟨_, hiff, hrest⟩, hgot⟩ := r.getInputBytes_spec 4
  have hheader : r.pending = fragHeader f.1 f.2.length ++ (f.2 ++ rest) := by
    rw [h, fragEnc, List.append_assoc]
  have hok : ok = true := hiff.mpr (by
    rw [hheader, List.length_append, length_fragHeader]
    omega)
  subst hok
  have hgot' : got = fragHeader f.1 f.2.length := (hgot rfl).trans (by rw [hheader]; rfl)
  have hrest' : r'.pending = f.2 ++ rest := (hrest rfl).trans (by rw [hheader]; rfl)
  have hne : ntohl got ≠ 0 := by
    rw [hgot', fragHeader_eq hlen]
    cases hf : f.1 with
    | false =>
      simpa using hpart hf
    | true => exact Nat.succ_ne_zero _
  refine ⟨(r.setInputFragment).2, ?_, ?_, ?_, ?_⟩ <;>
    simp only [setInputFragment, hget, if_neg hne]
  · exact hrest'
  · rw [hgot', fragHeader_and_mask hlen]
  · rw [hgot', fragHeader_and_bit hlen]

theorem setInputFragment_pending {r r' : Reader} (h : r.setInputFragment = (true, r')) :
    r'.pending.length < r.pending.length := by
  rcases hget : r.getInputBytes 4 with ⟨_ | _, got, r₁⟩
  · simp [setInputFragment, hget] at h
  · have hlen := (getInputBytes_takes hget).1.length
    have hlt : r₁.pending.length < r.pending.length := by omega
    by_cases h0 : ntohl got = 0
    · simp [setInputFragment, hget, h0] at h
    · simp only [setInputFragment, hget, if_neg h0] at h
      cases h
      exact hlt

/-- `xdrrec_getbytes`, with the bytes that it has copied. -/
def getbytes (len : Nat) (r : Reader) : Bool × List UInt8 × Reader :=
  if len = 0 then (true, [], r)
  else if r.fbtbc = 0 then
    if r.lastFrag then (false, [], r)
    else
      match _h : r.setInputFragment with
      | (false, r') => (false, [], r')
      | (true, r') => getbytes len r'
  else
    match _h : r.getInputBytes (min len r.fbtbc) with
    | (false, got, r') => (false, got, r')
    | (true, got, r') =>
      let rest := getbytes (len - min len r.fbtbc) { r' with fbtbc := r'.fbtbc - min len r.fbtbc }
      (rest.1, got ++ rest.2.1, rest.2.2)
termination_by len + r.pending.length
decreasing_by
  · have := setInputFragment_pending _h
    omega
  · have hlen := (getInputBytes_takes _h).1.length
    rw [pending_fbtbc r']
    omega

/-- `xdrrec_getlong`. -/
def getlong (r : Reader) : Option Int × Reader :=
  if 4 ≤ r.fbtbc ∧ 4 ≤ r.buf.length then
    (some (ofUnit (r.buf.take 4)), { r with fbtbc := r.fbtbc - 4, buf := r.buf.drop 4 })
  else
    match r.getbytes 4 with
    | (false, _, r') => (none, r')
    | (true, b, r') => (some (ofUnit b), r')

/-- The loop of `xdrrec_skiprecord` and of `xdrrec_eof`. -/
def skipFragments (r : Reader) : Bool × Reader :=
  if 0 < r.fbtbc ∨ r.lastFrag = false then
    match _h : r.skipInputBytes r.fbtbc with
    | (false, r') => (false, r')
    | (true, r') =>
      if r'.lastFrag = false then
        match _h' : ({ r' with fbtbc := 0 } : Reader).setInputFragment with
        | (false, r'') => (false, r'')
        | (true, r'') => skipFragments r''
      else skipFragments { r' with fbtbc := 0 }
  else (true, r)
termination_by r.pending.length
decreasing_by
  · have hlen := (skipInputBytes_takes _h).length
    have hlt := setInputFragment_pending _h'
    rw [pending_fbtbc r'] at hlt
    omega
  · obtain ⟨_, hlast⟩ := (skipInputBytes_takes _h).1
    have hlen := (skipInputBytes_takes _h).length
    have hpos : 0 < r.fbtbc := ‹0 < r.fbtbc ∨ r.lastFrag = false›.resolve_right fun h => by
      rw [← hlast] at h
      contradiction
    rw [pending_fbtbc r']
    omega

/-- `xdrrec_skiprecord`. -/
def skiprecord (r : Reader) : Bool × Reader :=
  match r.skipFragments with
  | (false, r') => (false, r')
  | (true, r') => (true, { r' with lastFrag := false })

/-- `xdrrec_eof`. -/
def eof (r : Reader) : Bool × Reader :=
  match r.skipFragments with
  | (false, r') => (true, r')
  | (true, r') => (r'.buf.isEmpty, r')

/-! ## What a reader gets -/

/-- The reader is in a record of which `cur` is to come, and then come the records `rs`. -/
def Comes (cur : List UInt8) (rs : List (List UInt8)) (r : Reader) : Prop :=
  ∃ b fs, r.pending = b ++ wireOf fs ∧ r.fbtbc = b.length ∧ (∀ f ∈ fs, f.Sound) ∧
    if r.lastFrag then cur = b ∧ rs = (split fs).1
    else ∃ r₀, (split fs).1 = r₀ :: rs ∧ cur = b ++ r₀

variable {cur : List UInt8} {rs : List (List UInt8)} {r : Reader}

/-- A record that goes on has another fragment. -/
theorem Comes.fragment (h : Comes cur rs r) (h0 : r.fbtbc = 0) (hlast : r.lastFrag = false) :
    ∃ r', r.setInputFragment = (true, r') ∧ Comes cur rs r' := by
  obtain ⟨b, fs, hpending, hb, hsound, hcur⟩ := h
  obtain rfl : b = [] := List.eq_nil_of_length_eq_zero (hb.symm.trans h0)
  rw [if_neg (by rw [hlast]; exact Bool.false_ne_true)] at hcur
  obtain ⟨r₀, hsplit, rfl⟩ := hcur
  cases fs with
  | nil => cases hsplit
  | cons f fs =>
    obtain ⟨hf, hsound⟩ := List.forall_mem_cons.mp hsound
    obtain ⟨r', hset, hpending', hlen, hlast'⟩ := setInputFragment_spec hf hpending
    refine ⟨r', hset, f.2, fs, hpending', hlen, hsound, ?_⟩
    obtain ⟨last, c⟩ := f
    simp only [hlast']
    cases last with
    | true =>
      obtain ⟨rfl, rfl⟩ := List.cons.inj hsplit
      exact ⟨rfl, rfl⟩
    | false =>
      rcases hs : split fs with ⟨_ | ⟨r₁, rs₁⟩, o⟩
      · simp [split, hs] at hsplit
      · simp only [split, hs] at hsplit
        obtain ⟨rfl, rfl⟩ := List.cons.inj hsplit
        exact ⟨r₁, rfl, rfl⟩

/-- Bytes of the fragment are taken. -/
theorem Comes.take {r' : Reader} {n : Nat} (h : Comes cur rs r) (hn : n ≤ r.fbtbc)
    (ht : Takes n r true r') :
    Comes (cur.drop n) rs { r' with fbtbc := r'.fbtbc - n } ∧
      cur.take n = r.pending.take n ∧ n ≤ cur.length := by
  obtain ⟨b, fs, hpending, hb, hsound, hcur⟩ := h
  obtain ⟨⟨hfbtbc, hlast⟩, _, hrest⟩ := ht
  have hle : n ≤ b.length := by omega
  have hdrop : r'.pending = b.drop n ++ wireOf fs := by
    rw [hrest rfl, hpending, List.drop_append_of_le_length hle]
  have hcomes {c : List UInt8}
      (hc : if r.lastFrag then c = b.drop n ∧ rs = (split fs).1
        else ∃ r₀, (split fs).1 = r₀ :: rs ∧ c = b.drop n ++ r₀) :
      Comes c rs { r' with fbtbc := r'.fbtbc - n } :=
    ⟨b.drop n, fs, hdrop, by simp only [hfbtbc, hb, List.length_drop], hsound, by rwa [hlast]⟩
  have htake : r.pending.take n = b.take n := by
    rw [hpending, List.take_append_of_le_length hle]
  rcases hl : r.lastFrag with _ | _
  · rw [if_neg (by rw [hl]; exact Bool.false_ne_true)] at hcur
    obtain ⟨r₀, hsplit, rfl⟩ := hcur
    refine ⟨hcomes ?_, ?_, ?_⟩
    · rw [if_neg (by rw [hl]; exact Bool.false_ne_true), List.drop_append_of_le_length hle]
      exact ⟨r₀, hsplit, rfl⟩
    · rw [htake, List.take_append_of_le_length hle]
    · rw [List.length_append]
      omega
  · rw [if_pos hl] at hcur
    obtain ⟨rfl, hrs⟩ := hcur
    refine ⟨hcomes ?_, htake.symm, hle⟩
    rw [if_pos hl]
    exact ⟨rfl, hrs⟩

theorem Comes.fbtbc_le (h : Comes cur rs r) : r.fbtbc ≤ r.pending.length := by
  obtain ⟨b, fs, hpending, hb, -⟩ := h
  rw [hpending, List.length_append]
  omega

theorem Comes.at_end (h : Comes cur rs r) (h0 : r.fbtbc = 0) (hlast : r.lastFrag = true) :
    cur = [] := by
  obtain ⟨b, fs, _, hb, _, hcur⟩ := h
  rw [if_pos hlast] at hcur
  rw [hcur.1]
  exact List.eq_nil_of_length_eq_zero (hb.symm.trans h0)

/-- Bytes are got from the record, and from no other: at its end the function fails. -/
theorem getbytes_spec (len : Nat) (h : Comes cur rs r) :
    ∃ ok got r', r.getbytes len = (ok, got, r') ∧ Comes (cur.drop len) rs r' ∧
      (ok = true ↔ len ≤ cur.length) ∧ (ok = true → got = cur.take len) := by
  induction len, r using getbytes.induct generalizing cur with
  | case1 r =>
    exact ⟨true, [], r, by rw [getbytes, if_pos rfl], h, iff_of_true rfl (Nat.zero_le _), fun _ => rfl⟩
  | case2 len r hlen h0 hlast =>
    obtain rfl := h.at_end h0 hlast
    refine ⟨false, [], r, ?_, by rwa [List.drop_nil], iff_of_false nofun ?_, nofun⟩
    · rw [getbytes, if_neg hlen, if_pos h0, if_pos hlast]
    · rw [List.length_nil]
      omega
  | case3 len r hlen h0 hlast r' hset =>
    obtain ⟨r₁, hset₁, _⟩ := h.fragment h0 (Bool.not_eq_true _ ▸ hlast)
    rw [hset] at hset₁
    cases hset₁
  | case4 len r hlen h0 hlast r' hset ih =>
    obtain ⟨r₁, hset₁, hcomes⟩ := h.fragment h0 (Bool.not_eq_true _ ▸ hlast)
    rw [hset] at hset₁
    cases hset₁
    obtain ⟨ok, got, r'', hget, hrest⟩ := ih hcomes
    refine ⟨ok, got, r'', ?_, hrest⟩
    rw [getbytes, if_neg hlen, if_pos h0, if_neg hlast]
    split <;> simp_all
  | case5 len r hlen h0 got r' hget =>
    obtain ⟨ok, got₁, r₁, hget₁, ⟨_, hiff, _⟩, _⟩ := r.getInputBytes_spec (min len r.fbtbc)
    rw [hget] at hget₁
    cases hget₁
    have hle := h.fbtbc_le
    exact absurd (hiff.mpr ((Nat.min_le_right _ _).trans hle)) nofun
  | case6 len r hlen h0 got r' hget ih =>
    obtain ⟨htakes, hgot⟩ := getInputBytes_takes hget
    obtain ⟨hcomes, htake, hle⟩ := h.take (Nat.min_le_right _ _) htakes
    obtain ⟨ok, got', r'', hget', hcomes', hiff, hgot'⟩ := ih hcomes
    have hcur : min len r.fbtbc ≤ len := Nat.min_le_left _ _
    refine ⟨ok, got ++ got', r'', ?_, ?_, hiff.trans ?_, fun hok => ?_⟩
    · rw [getbytes, if_neg hlen, if_neg h0]
      split <;> simp_all
    · rwa [List.drop_drop, Nat.add_sub_cancel' hcur] at hcomes'
    · rw [List.length_drop]
      omega
    · rw [hgot, hgot' hok, ← htake, ← List.take_add, Nat.add_sub_cancel' hcur]

theorem getlong_spec {b : List UInt8} (h : Comes (b ++ cur) rs r) (hb : b.length = 4) :
    ∃ r', r.getlong = (some (ofUnit b), r') ∧ Comes cur rs r' := by
  have hlen : (b ++ cur).length = 4 + cur.length := by rw [List.length_append, hb]
  by_cases hfast : 4 ≤ r.fbtbc ∧ 4 ≤ r.buf.length
  · have htakes : Takes 4 r true { r with buf := r.buf.drop 4 } :=
      .of_buf hfast.2 (le_refl 4) (takes_zero _)
    obtain ⟨hcomes, htake, _⟩ := h.take hfast.1 htakes
    have hval : r.buf.take 4 = b := by
      rw [← List.take_left' hb, htake, pending, List.take_append_of_le_length hfast.2]
    refine ⟨_, by rw [getlong, if_pos hfast, hval], ?_⟩
    rwa [List.drop_left' hb] at hcomes
  · obtain ⟨ok, got, r', hget, hcomes, hiff, hgot⟩ := getbytes_spec 4 h
    obtain rfl := hiff.mpr (by omega)
    refine ⟨r', ?_, by rwa [List.drop_left' hb] at hcomes⟩
    simp only [getlong, if_neg hfast, hget, hgot rfl, List.take_left' hb]

theorem Comes.skip {r' : Reader} (h : Comes cur rs r)
    (hskip : r.skipInputBytes r.fbtbc = (true, r')) :
    Comes (cur.drop r.fbtbc) rs { r' with fbtbc := 0 } := by
  have htakes := skipInputBytes_takes hskip
  obtain ⟨hcomes, -⟩ := h.take (le_refl _) htakes
  rwa [htakes.1.1, Nat.sub_self] at hcomes

/-- The rest of the record is skipped. -/
theorem skipFragments_spec (h : Comes cur rs r) :
    ∃ r', r.skipFragments = (true, r') ∧ Comes [] rs r' ∧ r'.fbtbc = 0 ∧ r'.lastFrag = true := by
  induction r using skipFragments.induct generalizing cur with
  | case1 r hmore r' hskip =>
    obtain ⟨ok, r₁, hskip₁, _, hiff, _⟩ := r.skipInputBytes_spec r.fbtbc
    rw [hskip] at hskip₁
    cases hskip₁
    exact absurd (hiff.mpr h.fbtbc_le) nofun
  | case2 r hmore r' hskip hlast r'' hset =>
    obtain ⟨r₁, hset₁, _⟩ := (h.skip hskip).fragment rfl hlast
    rw [hset] at hset₁
    cases hset₁
  | case3 r hmore r' hskip hlast r'' hset ih =>
    obtain ⟨r₁, hset₁, hcomes⟩ := (h.skip hskip).fragment rfl hlast
    rw [hset] at hset₁
    cases hset₁
    obtain ⟨r₂, hloop, hrest⟩ := ih hcomes
    refine ⟨r₂, ?_, hrest⟩
    rw [skipFragments, if_pos hmore]
    split <;> simp_all
    split <;> simp_all
  | case4 r hmore r' hskip hlast ih =>
    obtain ⟨r₂, hloop, hrest⟩ := ih (h.skip hskip)
    refine ⟨r₂, ?_, hrest⟩
    rw [skipFragments, if_pos hmore]
    split <;> simp_all
  | case5 r hdone =>
    obtain ⟨h0, hlast⟩ := not_or.mp hdone
    rw [Bool.not_eq_false] at hlast
    obtain rfl := h.at_end (by omega) hlast
    exact ⟨r, by rw [skipFragments, if_neg hdone], h, by omega, hlast⟩

/-- From anywhere in a record, to the front of the next. -/
theorem skiprecord_spec {next : List UInt8} (h : Comes cur (next :: rs) r) :
    ∃ r', r.skiprecord = (true, r') ∧ Comes next rs r' := by
  obtain ⟨r', hskip, ⟨b, fs, hpending, hb, hsound, hcur⟩, h0, hlast⟩ := skipFragments_spec h
  refine ⟨{ r' with lastFrag := false }, by simp only [skiprecord, hskip], ?_⟩
  rw [if_pos hlast] at hcur
  obtain ⟨rfl, hsplit⟩ := hcur
  exact ⟨[], fs, hpending, hb, hsound, next, hsplit.symm, rfl⟩

/-- Looking ahead leaves the reader at the end of its record. -/
theorem eof_spec (h : Comes cur rs r) : ∃ r', r.eof = (r'.buf.isEmpty, r') ∧ Comes [] rs r' := by
  obtain ⟨r', hskip, hcomes, -⟩ := skipFragments_spec h
  exact ⟨r', by simp only [eof, hskip], hcomes⟩

/-- `xdrrec_ops`, of the reader. -/
def ops : Stream Reader := ⟨getlong, fun _ r => (false, r), getbytes, fun _ r => (false, r)⟩

theorem getting (rs : List (List UInt8)) : Getting ops fun c r => Comes c rs r where
  long h hb := getlong_spec h hb
  bytes := by
    intro b c r h
    obtain ⟨ok, got, r', hget, hcomes, hiff, hgot⟩ := getbytes_spec b.length h
    have hle : b.length ≤ (b ++ c).length := by rw [List.length_append]; omega
    obtain rfl := hiff.mpr hle
    rw [List.drop_left] at hcomes
    rw [List.take_left] at hgot
    obtain rfl := hgot rfl
    exact ⟨r', hget, hcomes⟩

end Reader

/-! ## The writer -/

/-- The half of `RECSTREAM` that writes. The buffer holds, from `out_base`, `done`, whole fragments that
wait, then the room for a header at `frag_header`, and then `frag`, up to `out_finger`. `wire` has been
written, and each write takes as many bytes as `accepts` says. -/
structure Writer where
  sendsize : Nat
  large : 8 ≤ sendsize
  done : List UInt8
  frag : List UInt8
  fits : done.length + 4 + frag.length ≤ sendsize
  fragSent : Bool
  wire : List UInt8
  calls : Nat
  accepts : Nat → Nat → Nat

namespace Writer

/-- `out_finger`, from `out_base`. -/
def finger (w : Writer) : Nat := w.done.length + 4 + w.frag.length

/-- The bytes up to `out_finger`, with the header. -/
def out (w : Writer) (eor : Bool) : List UInt8 := w.done ++ fragEnc (eor, w.frag)

theorem finger_le (w : Writer) : w.finger ≤ w.sendsize := w.fits

theorem length_out (w : Writer) (eor : Bool) : (w.out eor).length = w.finger := by
  rw [out, fragEnc, List.length_append, List.length_append, length_fragHeader, finger, Nat.add_assoc]

def flushOut (eor : Bool) (w : Writer) : Bool × Writer :=
  let n := w.accepts w.calls (w.out eor).length
  let wire := w.wire ++ (w.out eor).take n
  if n ≠ (w.out eor).length then (false, { w with wire := wire, calls := w.calls + 1 })
  else
    have large := w.large
    (true, { w with
      done := [], frag := [], wire := wire, calls := w.calls + 1,
      fits := by simp only [List.length_nil]; omega })

/-- Bytes at `out_finger`. -/
def append (w : Writer) (b : List UInt8) (h : w.finger + b.length ≤ w.sendsize) : Writer :=
  { w with frag := w.frag ++ b, fits := by rw [List.length_append, ← Nat.add_assoc]; exact h }

theorem append_finger (w : Writer) (b : List UInt8) (h : w.finger + b.length ≤ w.sendsize) :
    (w.append b h).finger = w.finger + b.length := by
  simp only [finger, append, List.length_append, Nat.add_assoc]

theorem flushOut_true {eor : Bool} {w w' : Writer} (h : w.flushOut eor = (true, w')) :
    w'.finger = 4 ∧ w'.sendsize = w.sendsize := by
  rw [flushOut] at h
  split at h
  · cases h
  · obtain ⟨-, rfl⟩ := Prod.mk.inj h
    exact ⟨rfl, rfl⟩

/-- `xdrrec_putlong`. -/
def putlong (l : Int) (w : Writer) : Bool × Writer :=
  if h : w.finger + 4 > w.sendsize then
    match h' : ({ w with fragSent := true } : Writer).flushOut false with
    | (false, w') => (false, w')
    | (true, w') => (true, w'.append (unit l) (by
        have := w.large
        rw [(flushOut_true h').1, (flushOut_true h').2]
        exact this))
  else (true, w.append (unit l) (Nat.not_lt.mp h))

/-- As many of the bytes as the buffer has room for. -/
def fill (w : Writer) (b : List UInt8) : Writer :=
  w.append (b.take (w.sendsize - w.finger)) (by
    have := w.finger_le
    rw [List.length_take]
    omega)

theorem fill_finger (w : Writer) (b : List UInt8) :
    (w.fill b).finger = w.finger + min (w.sendsize - w.finger) b.length := by
  rw [fill, append_finger, List.length_take]

/-- `xdrrec_putbytes`. -/
def putbytes (b : List UInt8) (w : Writer) : Bool × Writer :=
  if b = [] then (true, w)
  else if (w.fill b).finger = w.sendsize then
    match _h : ({ w.fill b with fragSent := true } : Writer).flushOut false with
    | (false, w') => (false, w')
    | (true, w') => putbytes (b.drop (w.sendsize - w.finger)) w'
  else putbytes (b.drop (w.sendsize - w.finger)) (w.fill b)
termination_by 2 * b.length + if w.finger = w.sendsize then 1 else 0
decreasing_by
  · have hlen : 0 < b.length := List.length_pos_iff.mpr ‹_›
    have hlarge := w.large
    have hfits := w.finger_le
    obtain ⟨hfinger, hsize⟩ := flushOut_true _h
    have hsize' : w'.sendsize = w.sendsize := hsize
    rw [List.length_drop, hfinger, hsize', if_neg (by omega)]
    split <;> omega
  · have hlen : 0 < b.length := List.length_pos_iff.mpr ‹_›
    have hfits := w.finger_le
    have hsize : (w.fill b).sendsize = w.sendsize := rfl
    have hne : (w.fill b).finger ≠ w.sendsize := ‹_›
    have hroom : w.finger ≠ w.sendsize := fun heq => hne (by rw [fill_finger]; omega)
    rw [List.length_drop, hsize, if_neg hne, if_neg hroom]
    omega

theorem done_fits {w : Writer} {sendnow : Bool}
    (h : ¬ (sendnow = true ∨ w.fragSent = true ∨ w.finger + 4 ≥ w.sendsize)) :
    (w.out true).length + 4 + ([] : List UInt8).length ≤ w.sendsize := by
  obtain ⟨-, h⟩ := not_or.mp (not_or.mp h).2
  rw [w.length_out, List.length_nil]
  omega

/-- `xdrrec_endofrecord`. -/
def endofrecord (sendnow : Bool) (w : Writer) : Bool × Writer :=
  if h : sendnow ∨ w.fragSent ∨ w.finger + 4 ≥ w.sendsize then
    ({ w with fragSent := false } : Writer).flushOut true
  else
    (true, { w with done := w.out true, frag := [], fits := done_fits h })

/-! ## What a writer has put -/

/-- The records `recs` have been put, and `out` of the next, whether they are on the wire or wait in the
buffer. Fragments begin at whole units, and there is room for a unit behind every header. -/
structure Holds (recs : List (List UInt8)) (out : List UInt8) (w : Writer) : Prop where
  accepts : ∀ k n, w.accepts k n = n
  units : 4 ∣ w.sendsize
  small : w.sendsize ≤ 2 ^ 31
  room : w.done.length + 8 ≤ w.sendsize
  aligned : 4 ∣ w.done.length
  frags : ∃ fs, w.wire ++ w.done = wireOf fs ∧ (∀ f ∈ fs, f.Sound) ∧ (split fs).1 = recs ∧
    out = (split fs).2 ++ w.frag ∧ 4 ∣ (split fs).2.length

variable {recs : List (List UInt8)} {out : List UInt8} {w : Writer}

theorem Holds.append (h : Holds recs out w) (b : List UInt8)
    (hb : w.finger + b.length ≤ w.sendsize) : Holds recs (out ++ b) (w.append b hb) := by
  obtain ⟨fs, hwire, hsound, hsplit, hout, hfs⟩ := h.frags
  refine ⟨h.accepts, h.units, h.small, h.room, h.aligned, fs, hwire, hsound, hsplit, ?_, hfs⟩
  rw [hout, List.append_assoc]
  rfl

theorem Holds.mark (h : Holds recs out w) (sent : Bool) : Holds recs out { w with fragSent := sent } :=
  ⟨h.accepts, h.units, h.small, h.room, h.aligned, h.frags⟩

theorem Holds.frag_lt (h : Holds recs out w) : w.frag.length < 2 ^ 31 := by
  have hfits := w.fits
  have hsmall := h.small
  omega

theorem flushOut_eq (h : ∀ k n, w.accepts k n = n) (eor : Bool) :
    ∃ w', w.flushOut eor = (true, w') ∧ w'.done = [] ∧ w'.frag = [] ∧
      w'.wire = w.wire ++ w.done ++ fragEnc (eor, w.frag) ∧ w'.sendsize = w.sendsize ∧
        w'.accepts = w.accepts := by
  refine ⟨_, if_neg (not_not_intro (h _ _)), rfl, rfl, ?_, rfl, rfl⟩
  rw [h, List.take_length, out, List.append_assoc]

/-- A writer whose buffer has been sent. -/
theorem Holds.sent {recs' : List (List UInt8)} {out' : List UInt8} {w' : Writer} {fs : List Frag}
    (h : Holds recs out w) (hdone : w'.done = []) (hfrag : w'.frag = [])
    (hsize : w'.sendsize = w.sendsize) (hacc : w'.accepts = w.accepts)
    (hwire : w'.wire = wireOf fs) (hsound : ∀ f ∈ fs, f.Sound) (hsplit : split fs = (recs', out'))
    (h4 : 4 ∣ out'.length) : Holds recs' out' w' where
  accepts := by
    rw [hacc]
    exact h.accepts
  units := by
    rw [hsize]
    exact h.units
  small := by
    rw [hsize]
    exact h.small
  room := by
    rw [hdone]
    exact w'.large
  aligned := by
    rw [hdone]
    exact dvd_zero 4
  frags := ⟨fs, by rw [hdone, hwire, List.append_nil], hsound, by rw [hsplit],
    by rw [hsplit, hfrag, List.append_nil], by rwa [hsplit]⟩

/-- In the middle of a record, a fragment that is not empty is sent. -/
theorem Holds.flush_part (h : Holds recs out w) (hne : w.frag ≠ []) (h4 : 4 ∣ w.frag.length) :
    ∃ w', w.flushOut false = (true, w') ∧ Holds recs out w' := by
  obtain ⟨fs, hwire, hsound, hsplit, hout, hfs⟩ := h.frags
  obtain ⟨w', hflush, hdone, hfrag, hwire', hsize, hacc⟩ := flushOut_eq h.accepts false
  have hsplit' : split (fs ++ [(false, w.frag)]) = (recs, out) := by
    rw [split_append_part, hsplit, hout]
  refine ⟨w', hflush, h.sent hdone hfrag hsize hacc ?_ (fun f hf => ?_) hsplit' ?_⟩
  · rw [hwire', hwire, wireOf_append, wireOf_cons, wireOf_nil, List.append_nil]
  · rcases List.mem_append.mp hf with hf | hf
    · exact hsound f hf
    · obtain rfl := List.mem_singleton.mp hf
      exact ⟨h.frag_lt, fun _ => hne⟩
  · rw [hout, List.length_append]
    exact Nat.dvd_add hfs h4

/-- The fragments with the last of the record. -/
theorem Holds.last (h : Holds recs out w) :
    ∃ fs, w.wire ++ w.out true = wireOf fs ∧ (∀ f ∈ fs, f.Sound) ∧ split fs = (recs ++ [out], []) := by
  obtain ⟨fs, hwire, hsound, hsplit, hout, -⟩ := h.frags
  refine ⟨fs ++ [(true, w.frag)], ?_, ?_, ?_⟩
  · rw [Writer.out, ← List.append_assoc, hwire, wireOf_append, wireOf_cons, wireOf_nil, List.append_nil]
  · intro f hf
    rcases List.mem_append.mp hf with hf | hf
    · exact hsound f hf
    · obtain rfl := List.mem_singleton.mp hf
      exact ⟨h.frag_lt, nofun⟩
  · rw [split_append_last, hsplit, hout]

theorem Holds.flush_last (h : Holds recs out w) :
    ∃ w', w.flushOut true = (true, w') ∧ Holds (recs ++ [out]) [] w' ∧ w'.done = [] := by
  obtain ⟨fs, hwire, hsound, hsplit⟩ := h.last
  obtain ⟨w', hflush, hdone, hfrag, hwire', hsize, hacc⟩ := flushOut_eq h.accepts true
  refine ⟨w', hflush, h.sent hdone hfrag hsize hacc ?_ hsound hsplit (dvd_zero 4), hdone⟩
  rw [hwire', ← hwire, Writer.out, List.append_assoc]

theorem Holds.frag_dvd (h : Holds recs out w) (h4 : 4 ∣ out.length) : 4 ∣ w.frag.length := by
  obtain ⟨fs, _, _, _, hout, hfs⟩ := h.frags
  rw [hout, List.length_append] at h4
  exact (Nat.dvd_add_right hfs).mp h4

/-- When the buffer is full, its last fragment is not empty and has whole units. -/
theorem Holds.full (h : Holds recs out w) (hfull : w.finger = w.sendsize) :
    w.frag ≠ [] ∧ 4 ∣ w.frag.length := by
  obtain ⟨a, ha⟩ := h.units
  obtain ⟨c, hc⟩ := h.aligned
  have hroom := h.room
  rw [finger] at hfull
  exact ⟨fun hnil => by rw [hnil, List.length_nil] at hfull; omega, ⟨a - c - 1, by omega⟩⟩

theorem putlong_spec (h : Holds recs out w) (h4 : 4 ∣ out.length) (l : Int) :
    ∃ w', w.putlong l = (true, w') ∧ Holds recs (out ++ unit l) w' := by
  by_cases hroom : w.finger + 4 > w.sendsize
  · have hfull : w.finger = w.sendsize := by
      obtain ⟨a, ha⟩ := h.units
      obtain ⟨c, hc⟩ := h.aligned
      obtain ⟨e, he⟩ := h.frag_dvd h4
      have hle := w.finger_le
      rw [finger] at hroom hle ⊢
      omega
    obtain ⟨hne, hdvd⟩ := h.full hfull
    obtain ⟨w', hflush, hw'⟩ := (h.mark true).flush_part hne hdvd
    have hfits : w'.finger + (unit l).length ≤ w'.sendsize := by
      have := w'.large
      rw [(flushOut_true hflush).1]
      exact this
    refine ⟨w'.append (unit l) hfits, ?_, hw'.append _ _⟩
    rw [putlong, dif_pos hroom]
    split
    · simp_all
    · rename_i heq
      rw [hflush] at heq
      cases heq
      rfl
  · exact ⟨_, dif_neg hroom, h.append _ _⟩

theorem putbytes_spec (b : List UInt8) (h : Holds recs out w) :
    ∃ w', w.putbytes b = (true, w') ∧ Holds recs (out ++ b) w' := by
  induction b, w using putbytes.induct generalizing out with
  | case1 w => exact ⟨w, by rw [putbytes, if_pos rfl], by rwa [List.append_nil]⟩
  | case2 b w hb hfull w' hflush =>
    have hfill : Holds recs _ (w.fill b) := h.append _ _
    obtain ⟨hne, h4⟩ := hfill.full hfull
    obtain ⟨w₁, hflush₁, _⟩ := (hfill.mark true).flush_part hne h4
    rw [hflush] at hflush₁
    cases hflush₁
  | case3 b w hb hfull w' hflush ih =>
    have hfill : Holds recs _ (w.fill b) := h.append _ _
    obtain ⟨hne, h4⟩ := hfill.full hfull
    obtain ⟨w₁, hflush₁, hw₁⟩ := (hfill.mark true).flush_part hne h4
    rw [hflush] at hflush₁
    cases hflush₁
    obtain ⟨w'', hput, hw''⟩ := ih hw₁
    refine ⟨w'', ?_, by rwa [List.append_assoc, List.take_append_drop] at hw''⟩
    rw [putbytes, if_neg hb, if_pos hfull]
    split <;> simp_all
  | case4 b w hb hfull ih =>
    obtain ⟨w', hput, hw'⟩ := ih (h.append _ _)
    refine ⟨w', ?_, by rwa [List.append_assoc, List.take_append_drop] at hw'⟩
    rw [putbytes, if_neg hb, if_neg hfull]
    exact hput

theorem endofrecord_spec (h : Holds recs out w) (h4 : 4 ∣ out.length) (sendnow : Bool) :
    ∃ w', w.endofrecord sendnow = (true, w') ∧ Holds (recs ++ [out]) [] w' ∧
      (sendnow = true → w'.done = []) := by
  by_cases hsend : sendnow = true ∨ w.fragSent = true ∨ w.finger + 4 ≥ w.sendsize
  · obtain ⟨w', hflush, hw', hdone⟩ := (h.mark false).flush_last
    exact ⟨w', by rw [endofrecord, dif_pos hsend, hflush], hw', fun _ => hdone⟩
  · obtain ⟨fs, hwire, hsound, hsplit⟩ := h.last
    obtain ⟨hnow, -, hfinger⟩ := not_or.mp hsend |>.imp_right not_or.mp
    have hdvd := h.frag_dvd h4
    obtain ⟨a, ha⟩ := h.units
    obtain ⟨c, hc⟩ := h.aligned
    obtain ⟨e, he⟩ := hdvd
    have hlen : (w.out true).length = w.done.length + 4 + w.frag.length := w.length_out true
    rw [finger] at hfinger
    refine ⟨{ w with done := w.out true, frag := [], fits := done_fits hsend }, dif_neg hsend,
      ⟨h.accepts, h.units, h.small, ?_, ?_, fs, hwire, hsound, by rw [hsplit], by rw [hsplit]; rfl,
        by rw [hsplit]; exact dvd_zero 4⟩, fun hn => absurd hn hnow⟩
    · simp only
      omega
    · exact ⟨c + 1 + e, by simp only; omega⟩

/-- `xdrrec_ops`, of the writer. -/
def ops : Stream Writer := ⟨fun w => (none, w), putlong, fun _ w => (false, [], w), putbytes⟩

theorem putting (recs : List (List UInt8)) : Putting ops fun _ out w => Holds recs out w where
  long h h4 l := putlong_spec h h4 l
  bytes b h := putbytes_spec b h

end Writer

/-! ## From writer to reader -/

/-- `fix_buf_size`. -/
def fixBufSize (s : Nat) : Nat := ((if s < 100 then 4000 else s) + 3) % 2 ^ 32 / 4 * 4

theorem fixBufSize_bounds {s : Nat} (h : s < 2 ^ 30) :
    100 ≤ fixBufSize s ∧ fixBufSize s ≤ 2 ^ 31 ∧ 4 ∣ fixBufSize s := by
  refine ⟨?_, ?_, Nat.dvd_mul_left 4 _⟩ <;>
  · unfold fixBufSize
    split <;> omega

/-- The writing half of `xdrrec_create`. -/
def Writer.create (sendsize : Nat) (h : sendsize < 2 ^ 30) (accepts : Nat → Nat → Nat) : Writer where
  sendsize := fixBufSize sendsize
  large := (by decide : 8 ≤ 100).trans (fixBufSize_bounds h).1
  done := []
  frag := []
  fits := (by decide : 4 ≤ 100).trans (fixBufSize_bounds h).1
  fragSent := false
  wire := []
  calls := 0
  accepts := accepts

/-- The reading half, on a network that brings `net`. -/
def Reader.create (recvsize : Nat) (h : recvsize < 2 ^ 30) (net : List UInt8) (arrives : Nat → Nat) :
    Reader where
  inSize := fixBufSize recvsize
  large := (by decide : 4 ≤ 100).trans (fixBufSize_bounds h).1
  boundary := fixBufSize recvsize
  buf := []
  net := net
  calls := 0
  arrives := arrives
  fbtbc := 0
  lastFrag := true

/-- What a receiver does with a record: whether it takes an object of the type, and how many bytes more
it asks for then. -/
structure Request where
  type : Desc
  wanted : Bool
  extra : Nat

/-- An object that is sent as a record, and the value that it stands for. -/
structure Message extends Request where
  obj : Obj type
  val : Val type
  reads : Reads type obj val
  fits : Fits type val
  sendnow : Bool

/-- What a sender does with a message. -/
def send (m : Message) (w : Writer) (h : Heap) : Option (Bool × Writer × Heap) :=
  (xdr Writer.ops .encode m.type m.obj w h).map fun (ok, _, w', h') =>
    if ok then ((w'.endofrecord m.sendnow).1, (w'.endofrecord m.sendnow).2, h') else (false, w', h')

def sendAll : List Message → Writer → Heap → Option (Bool × Writer)
  | [], w, _ => some (true, w)
  | m :: ms, w, h =>
    (send m w h).bind fun (ok, w', h') => if ok then sendAll ms w' h' else some (false, w')

/-- What a receiver takes of a message: the object, and whether there were more bytes. -/
abbrev Received (d : Desc) := Option (Obj d × Bool)

def receive (q : Request) (r : Reader) (h : Heap) : Option (Bool × Received q.type × Reader × Heap) :=
  match r.skiprecord with
  | (false, r') => some (false, none, r', h)
  | (true, r') =>
    if q.wanted then
      (xdr Reader.ops .decode q.type (zero q.type) r' h).map fun (ok, o, r'', h') =>
        (ok, some (o, (r''.getbytes q.extra).1), (r''.getbytes q.extra).2.2, h')
    else some (true, none, r', h)

def receiveAll : List Request → Reader → Heap → Option (Bool × List (Σ d, Received d))
  | [], _, _ => some (true, [])
  | q :: qs, r, h =>
    (receive q r h).bind fun (ok, x, r', h') =>
      if ok then (receiveAll qs r' h').map fun (ok, xs) => (ok, ⟨q.type, x⟩ :: xs)
      else some (false, [⟨q.type, x⟩])

/-- The receiver has an object that stands for the value that was sent, and no bytes more. -/
def Arrived (x : Σ d, Received d) (m : Message) : Prop :=
  ∃ y : Received m.type, x = ⟨m.type, y⟩ ∧
    if m.wanted then ∃ o, y = some (o, decide (m.extra = 0)) ∧ Reads m.type o m.val else y = none

theorem send_spec {m : Message} {recs : List (List UInt8)} {w : Writer} (hw : w.Holds recs [])
    (h : Heap) :
    ∃ w', send m w h = some (true, w', h) ∧ w'.Holds (recs ++ [enc m.type m.val]) [] ∧
      (m.sendnow = true → w'.done = []) := by
  obtain ⟨h4, henc⟩ := xdr_encodes (Writer.putting recs) m.type m.obj m.val m.reads m.fits
  obtain ⟨w₁, hxdr, hw₁⟩ := henc 0 [] w h hw (dvd_zero 4)
  obtain ⟨w₂, hend, hw₂, hdone⟩ := Writer.endofrecord_spec hw₁ h4 m.sendnow
  exact ⟨w₂, by simp only [send, hxdr, Option.map_some, if_true, hend], hw₂, hdone⟩

/-- The last message takes all that waits with it. -/
theorem sendAll_spec {ms : List Message} {recs : List (List UInt8)} {w : Writer}
    (hw : w.Holds recs []) (hdone : ms = [] → w.done = [])
    (hnow : ∀ m ∈ ms.getLast?, m.sendnow = true) (h : Heap) :
    ∃ w', sendAll ms w h = some (true, w') ∧
      w'.Holds (recs ++ ms.map fun m => enc m.type m.val) [] ∧ w'.done = [] := by
  induction ms generalizing recs w with
  | nil => exact ⟨w, rfl, by rwa [List.map_nil, List.append_nil], hdone rfl⟩
  | cons m ms ih =>
    obtain ⟨w₁, hsend, hw₁, hdone₁⟩ := send_spec (m := m) hw h
    have hlast : ms = [] → w₁.done = [] := by
      rintro rfl
      exact hdone₁ (hnow m rfl)
    have hnow' : ∀ m ∈ ms.getLast?, m.sendnow = true := by
      intro m' hm'
      apply hnow m'
      rw [List.getLast?_cons, Option.mem_def.mp hm']
      rfl
    obtain ⟨w', hall, hw', hdone'⟩ := ih hw₁ hlast hnow'
    refine ⟨w', ?_, ?_, hdone'⟩
    · simp only [sendAll, hsend, Option.bind_some, if_true, hall]
    · rwa [List.append_assoc] at hw'

theorem receive_spec {m : Message} {cur : List UInt8} {rs : List (List UInt8)} {r : Reader}
    (hr : r.Comes cur (enc m.type m.val :: rs)) {h : Heap} (hg : ∀ b, h.grants b = true) :
    ∃ x cur' r' h', receive m.toRequest r h = some (true, x, r', h') ∧ Arrived ⟨m.type, x⟩ m ∧
      r'.Comes cur' rs ∧ ∀ b, h'.grants b = true := by
  obtain ⟨r₁, hskip, hr₁⟩ := Reader.skiprecord_spec hr
  cases hwanted : m.wanted with
  | false =>
    exact ⟨none, _, r₁, h, by simp [receive, hskip, hwanted], ⟨none, rfl, by simp [hwanted]⟩, hr₁, hg⟩
  | true =>
    rw [← List.append_nil (enc m.type m.val)] at hr₁
    obtain ⟨o, r₂, h₂, hxdr, ho, hr₂, hg₂⟩ :=
      xdr_decodes (Reader.getting rs) m.type m.val m.fits [] r₁ h hr₁ hg
    obtain ⟨ok, got, r₃, hget, hr₃, hiff, _⟩ := Reader.getbytes_spec m.extra hr₂
    refine ⟨some (o, ok), _, r₃, h₂, ?_, ⟨_, rfl, ?_⟩, hr₃, hg₂⟩
    · simp [receive, hskip, hwanted, hxdr, hget]
    · rw [if_pos hwanted]
      have hok : ok = decide (m.extra = 0) := by
        rw [List.length_nil, Nat.le_zero] at hiff
        cases ok <;> simp_all
      exact ⟨o, by rw [hok], ho⟩

theorem receiveAll_spec {ms : List Message} {cur : List UInt8} {r : Reader}
    (hr : r.Comes cur (ms.map fun m => enc m.type m.val)) {h : Heap} (hg : ∀ b, h.grants b = true) :
    ∃ xs, receiveAll (ms.map (·.toRequest)) r h = some (true, xs) ∧ List.Forall₂ Arrived xs ms := by
  induction ms generalizing cur r h with
  | nil => exact ⟨[], rfl, .nil⟩
  | cons m ms ih =>
    obtain ⟨x, cur', r', h', hreceive, hx, hr', hg'⟩ := receive_spec hr hg
    obtain ⟨xs, hall, hxs⟩ := ih hr' hg'
    refine ⟨⟨m.type, x⟩ :: xs, ?_, .cons hx hxs⟩
    simp only [List.map_cons, receiveAll, hreceive, Option.bind_some, if_true, hall, Option.map_some]

theorem Writer.create_holds {sendsize : Nat} (hsend : sendsize < 2 ^ 30) :
    (Writer.create sendsize hsend fun _ n => n).Holds [] [] := by
  obtain ⟨hlarge, hsmall, h4⟩ := fixBufSize_bounds hsend
  refine ⟨fun _ _ => rfl, h4, hsmall, ?_, dvd_zero 4, [], rfl, nofun, rfl, rfl, dvd_zero 4⟩
  exact (by decide : 8 ≤ 100).trans hlarge

/-- A message that waits in the buffer, and that the receiver skips. -/
def waiting : Message :=
  ⟨⟨.string 9, false, 0⟩, some (0, [104, 105, 0]), [104, 105], ⟨0, [], rfl⟩,
    ⟨by decide, by decide, by decide⟩, false⟩

/-- A message that is sent at once, and behind which the receiver asks for more. -/
def urgent : Message :=
  ⟨⟨.string 9, true, 3⟩, some (0, [104, 111, 0]), [104, 111], ⟨0, [], rfl⟩,
    ⟨by decide, by decide, by decide⟩, true⟩

end Dietlibc.Rpc
