import Dietlibc.Netdb.Gethostent

/-!
# Runs over the hosts file

`Stuck` says of a state of `gethostent_r` that its next access is outside `buf` or the mapping. A call
comes to its end if it meets no such state, and then the mapping is as it was or gone. So a sequence of
calls survives exactly if none of them meets one (`Clear`).
-/

namespace Dietlibc.Netdb.Hosts

open Machine Accounts
open Dns (isspace)

/-- What is mapped. -/
def content (file : List UInt8) : List UInt8 := file.take (file.length % 2 ^ 32)

theorem length_content (file : List UInt8) : (content file).length = file.length % 2 ^ 32 :=
  List.length_take_of_le (Nat.mod_le _ _)

/-! ## A mapping -/

/-- `hostmap` is where these bytes are mapped, and the mapping does not wrap around. -/
structure Mapped (bytes : List UInt8) (h : Statics) : Prop where
  map : h.map = some (h.hostmap, bytes)
  hostlen : h.hostlen = bytes.length
  short : bytes.length < 2 ^ 32
  pos : 0 < h.hostmap
  room : h.hostmap + bytes.length < 2 ^ 64 - 1

section

variable {bytes : List UInt8} {h : Statics} {a : Nat} {p : UInt8 → Bool}

theorem Mapped.last (hm : Mapped bytes h) : h.last = h.hostmap + bytes.length := by
  have hroom := hm.room
  unfold Statics.last
  rw [hm.hostlen, Nat.mod_eq_of_lt (by omega)]

theorem Mapped.ne_failed (hm : Mapped bytes h) : h.hostmap ≠ failed := by
  have hroom := hm.room
  unfold failed
  omega

theorem Mapped.from? (hm : Mapped bytes h) (hge : h.hostmap ≤ a) (hlt : a < h.last) :
    h.from? a = some (bytes.drop (a - h.hostmap)) := by
  rw [hm.last] at hlt
  unfold Statics.from?
  rw [hm.map]
  exact if_pos ⟨hge, hlt⟩

theorem Mapped.at? (hm : Mapped bytes h) (hge : h.hostmap ≤ a) (hlt : a < h.last) :
    ∃ c, h.at? a = some c ∧ bytes[a - h.hostmap]? = some c := by
  have hlen : a - h.hostmap < bytes.length := by
    rw [hm.last] at hlt
    omega
  unfold Statics.at?
  rw [hm.from? hge hlt, Option.bind_some, List.head?_drop]
  exact ⟨_, List.getElem?_eq_getElem hlen, List.getElem?_eq_getElem hlen⟩

theorem Mapped.at?_last (hm : Mapped bytes h) (hle : h.last ≤ a) : h.at? a = none := by
  rw [hm.last] at hle
  unfold Statics.at? Statics.from?
  rw [hm.map]
  dsimp only
  rw [if_neg (by omega)]
  rfl

/-- A scan stops in the mapping or at its end. -/
theorem Mapped.skip (hm : Mapped bytes h) (hge : h.hostmap ≤ a) (hle : a ≤ h.last) :
    ∃ a', h.skip p a = some a' ∧ a ≤ a' ∧ a' ≤ h.last ∧
      (a' < h.last → ∃ c, h.at? a' = some c ∧ bytes[a' - h.hostmap]? = some c ∧ p c = false) := by
  unfold Statics.skip
  by_cases hend : h.last ≤ a
  · rw [if_pos hend]
    exact ⟨a, rfl, le_rfl, hle, fun hlt => absurd hlt (Nat.not_lt.2 hend)⟩
  · have hlt : a < h.last := Nat.lt_of_not_le hend
    rw [if_neg hend, hm.from? hge hlt, Option.map_some]
    have hlen := (List.takeWhile_sublist p (l := bytes.drop (a - h.hostmap))).length_le
    rw [List.length_drop] at hlen
    have hlast := hm.last
    refine ⟨_, rfl, Nat.le_add_right _ _, by omega, fun hlt' => ?_⟩
    obtain ⟨c, hat, hget⟩ := hm.at? (a := a + ((bytes.drop (a - h.hostmap)).takeWhile p).length)
      (by omega) hlt'
    refine ⟨c, hat, hget, ?_⟩
    have hdrop := congrArg (List.drop ((bytes.drop (a - h.hostmap)).takeWhile p).length)
      (List.takeWhile_append_dropWhile (p := p) (l := bytes.drop (a - h.hostmap)))
    rw [List.drop_left] at hdrop
    have hhead : ((bytes.drop (a - h.hostmap)).dropWhile p).head? = some c := by
      rw [← hget, ← List.head?_drop, Nat.sub_add_comm hge, ← List.drop_drop, ← hdrop]
    have hnot := List.head?_dropWhile_not p (bytes.drop (a - h.hostmap))
    rw [hhead] at hnot
    exact hnot

theorem Mapped.moved (hm : Mapped bytes h) (cur : Nat) : Mapped bytes { h with cur } :=
  ⟨hm.map, hm.hostlen, hm.short, hm.pos, hm.room⟩

/-- A byte that is patched and restored. -/
theorem Mapped.patched (hm : Mapped bytes h) (c : UInt8) :
    Mapped (bytes.set (a - h.hostmap) c) (h.patch a c) := by
  have hlen : (bytes.set (a - h.hostmap) c).length = bytes.length := List.length_set
  refine ⟨?_, ?_, ?_, hm.pos, ?_⟩
  · unfold Statics.patch
    rw [hm.map]
    rfl
  · rw [hlen]
    exact hm.hostlen
  · rw [hlen]
    exact hm.short
  · rw [hlen]
    exact hm.room

theorem Mapped.restored (hm : Mapped bytes h) {save : UInt8} (c : UInt8)
    (hget : bytes[a - h.hostmap]? = some save) :
    (h.patch a c).patch a save = h := by
  obtain ⟨hlen, rfl⟩ := List.getElem?_eq_some_iff.1 hget
  have hset : (bytes.set (a - h.hostmap) c).set (a - h.hostmap) bytes[a - h.hostmap] = bytes := by
    rw [List.set_set, List.set_getElem_self]
  have hmap := hm.map
  cases h
  dsimp only at hmap hset ⊢
  unfold Statics.patch
  simp only [hmap, Option.map_some, hset]

theorem Mapped.munmap (hm : Mapped bytes h) : h.munmap.map = none := by
  unfold Statics.munmap
  rw [if_pos ⟨hm.ne_failed, by rw [hm.map]; rfl⟩]

theorem munmap_none (hnone : h.map = none) : h.munmap = h := by
  refine if_neg fun hand => ?_
  rw [hnone] at hand
  cases hand.2

end

/-! ## The states of a call -/

abbrev nonspace (b : UInt8) : Bool := !isspace b

/-- `INT_MAX` -/
def intMax : Nat := 2147483647

/-- The next access is outside `buf` or the mapping: a negative `len` passes for a large one, a call
behind a failed one reads where nothing is mapped, `h_addr_list[1]` is behind `buf`, and a name is of
more bytes than an `int` counts or ends with the file. -/
def Stuck (len : Int) (s : St) : Prop :=
  match s.label with
  | .again => len < 0 ∨ sizeMin ≤ len ∧ s.hosts.hostmap = failed ∧ s.hosts.cur < s.hosts.last
  | .address => len < destStart
  | .names => ∃ start cur, s.hosts.skip isblank s.hosts.cur = some start ∧
      s.hosts.skip nonspace start = some cur ∧ (intMax ≤ cur - start + 1 ∨
        ((s.dest + (cur - start) + 2 : Nat) : Int) ≤ len ∧ s.hosts.last ≤ cur)
  | _ => False

/-- What holds where a call goes on. -/
def Inv (bytes : List UInt8) (len : Int) (s : St) : Prop :=
  match s.label with
  | .again => s.hosts.map = none ∧ s.hosts.hostmap = failed ∨
      Mapped bytes s.hosts ∧ s.hosts.hostmap ≤ s.hosts.cur
  | .address => Mapped bytes s.hosts ∧ s.hosts.hostmap ≤ s.hosts.cur ∧
      s.hosts.cur < s.hosts.last ∧ sizeMin ≤ len ∧ s.dest = destStart ∧
      bytes[s.hosts.cur - s.hosts.hostmap]? ≠ some newline
  | .names => Mapped bytes s.hosts ∧ s.hosts.hostmap < s.hosts.cur ∧
      s.hosts.cur ≤ s.hosts.last ∧ destStart ≤ s.dest ∧ (s.dest : Int) ≤ len ∧
      s.aliasidx < aliasesMax - 1 ∧ bytes[s.hosts.cur - s.hosts.hostmap - 1]? ≠ some newline
  | .parseerror => Mapped bytes s.hosts ∧ s.hosts.hostmap ≤ s.hosts.cur ∧
      s.hosts.cur ≤ s.hosts.last
  | .nospace => s.hosts.map = none ∧ s.hosts.hostmap = failed ∨ ∃ bytes, Mapped bytes s.hosts

/-- What holds behind a call. -/
def Final (bytes : List UInt8) (h : Statics) : Prop :=
  h.map = none ∧ h.hostmap = failed ∨ Mapped bytes h ∧ h.hostmap ≤ h.cur

def Label.rank : Label → Nat
  | .again => 4
  | .address => 3
  | .names => 2
  | .parseerror => 1
  | .nospace => 0

/-- What is left of the file, and of the line. -/
def measure (s : St) : Nat := (s.hosts.last + 2 - s.hosts.cur) * 5 + s.label.rank

/-- `cur` does not go back, and `hostlen` stays even if there is no mapping any more. -/
structure Onward (h h' : Statics) : Prop where
  hostlen : h'.hostlen = h.hostlen
  cur : h.cur ≤ h'.cur
  hostmap : h'.hostmap = h.hostmap ∨ h'.hostmap = failed

theorem Onward.refl (h : Statics) : Onward h h := ⟨rfl, le_rfl, .inl rfl⟩

theorem Onward.trans {h h' h'' : Statics} (h1 : Onward h h') (h2 : Onward h' h'') : Onward h h'' := by
  refine ⟨h2.hostlen.trans h1.hostlen, h1.cur.trans h2.cur, ?_⟩
  rcases h2.hostmap with hsame | hfailed
  · rw [hsame]
    exact h1.hostmap
  · exact .inr hfailed

theorem Onward.error (h : Statics) : Onward h h.error := by
  have hmunmap : h.munmap.hostlen = h.hostlen ∧ h.munmap.cur = h.cur := by
    unfold Statics.munmap
    split
    · exact ⟨rfl, rfl⟩
    · exact ⟨rfl, rfl⟩
  exact ⟨hmunmap.1, hmunmap.2.ge, .inr rfl⟩

theorem Onward.moved (h : Statics) {cur : Nat} (hle : h.cur ≤ cur) : Onward h { h with cur } :=
  ⟨rfl, hle, .inl rfl⟩

/-- A step goes on with less left, or ends the call. -/
def Goes (bytes : List UInt8) (len : Int) (s : St) : StNext → Prop
  | .again s' => Inv bytes len s' ∧ measure s' < measure s ∧ Onward s.hosts s'.hosts
  | .stop r => Final bytes r.st.hosts ∧ Onward s.hosts r.st.hosts
  | .fault _ => False

/-- A step is a fault from the states that are stuck, and only from those. -/
def Decided (bytes : List UInt8) (len : Int) (s : St) (next : StNext) : Prop :=
  (Stuck len s → next = .fault ()) ∧ (¬Stuck len s → Goes bytes len s next)

section

variable {bytes : List UInt8} {len : Int} {s : St} {start : Nat}

theorem Decided.fault {next : StNext} (hs : Stuck len s) (h : next = .fault ()) :
    Decided bytes len s next := ⟨fun _ => h, fun hn => absurd hs hn⟩

theorem Decided.goes {next : StNext} (hs : ¬Stuck len s) (h : Goes bytes len s next) :
    Decided bytes len s next := ⟨fun hn => absurd hn hs, fun _ => h⟩

theorem again_decided (hl : s.label = .again) (hi : Inv bytes len s) :
    Decided bytes len s (again len s) := by
  have hstuck : Stuck len s ↔
      len < 0 ∨ sizeMin ≤ len ∧ s.hosts.hostmap = failed ∧ s.hosts.cur < s.hosts.last := by
    unfold Stuck
    rw [hl]
  have hrank : measure s = (s.hosts.last + 2 - s.hosts.cur) * 5 + 4 := by
    unfold measure
    rw [hl]
    rfl
  unfold Inv at hi
  rw [hl] at hi
  dsimp only at hi
  unfold again
  by_cases hsmall : 0 ≤ len ∧ len < sizeMin
  · rw [if_pos hsmall]
    refine .goes (by rw [hstuck]; omega) ⟨?_, ?_, .refl _⟩
    · exact hi.imp_right fun hm => ⟨bytes, hm.1⟩
    · rw [hrank]
      exact Nat.lt_add_of_pos_right (by decide)
  rw [if_neg hsmall]
  by_cases hneg : len < 0
  · refine .fault (hstuck.2 (.inl hneg)) (if_pos ?_)
    unfold Inside
    omega
  have hlen : sizeMin ≤ len := by omega
  have hinside : Inside len 0 40 := by
    unfold sizeMin at hlen
    unfold Inside
    omega
  rw [if_neg (not_not.2 hinside)]
  dsimp only
  by_cases hend : s.hosts.last ≤ s.hosts.cur
  · rw [if_pos hend]
    exact .goes (by rw [hstuck]; omega) ⟨hi, .refl _⟩
  rw [if_neg hend]
  rcases hi with ⟨hmap, hfailed⟩ | ⟨hm, hge⟩
  · have hat : s.hosts.at? s.hosts.cur = none := by
      unfold Statics.at? Statics.from?
      rw [hmap]
      rfl
    rw [hat]
    exact .fault (hstuck.2 (.inr ⟨hlen, hfailed, Nat.lt_of_not_le hend⟩)) rfl
  have hns : ¬Stuck len s := by
    rw [hstuck]
    rintro (h | ⟨-, h, -⟩)
    · exact hneg h
    · exact hm.ne_failed h
  obtain ⟨c, hat, -⟩ := hm.at? hge (Nat.lt_of_not_le hend)
  obtain ⟨cur, hskip, hle, hle', hstop⟩ := hm.skip (p := fun b => !isspace b) hge
    (Nat.le_of_not_le hend)
  rw [hat, hskip]
  dsimp only
  refine .goes hns ?_
  by_cases hc : c = hash ∨ c = newline
  · rw [if_pos hc]
    refine ⟨⟨hm, hge, Nat.le_of_not_le hend⟩, ?_, .refl _⟩
    rw [hrank]
    exact Nat.add_lt_add_left (show Label.parseerror.rank < 4 by decide) _
  rw [if_neg hc]
  by_cases hend' : s.hosts.last ≤ cur
  · rw [if_pos (show ({ s.hosts with cur } : Statics).last ≤ cur from hend')]
    exact ⟨.inr ⟨hm.moved cur, hge.trans hle⟩, .moved _ hle⟩
  rw [if_neg (show ¬({ s.hosts with cur } : Statics).last ≤ cur from hend')]
  obtain ⟨c', hat', hget', -⟩ := hstop (Nat.lt_of_not_le hend')
  rw [show ({ s.hosts with cur } : Statics).at? cur = some c' from hat']
  have hless : (s.hosts.last + 2 - cur) * 5 ≤ (s.hosts.last + 2 - s.hosts.cur) * 5 := by omega
  by_cases hc' : c' = newline
  · refine ⟨?_, ?_, .moved _ hle⟩
    · simp only [if_pos hc']
      exact ⟨hm.moved cur, hge.trans hle, hle'⟩
    · rw [hrank]
      simp only [if_pos hc']
      exact Nat.add_lt_add_of_le_of_lt hless (show Label.parseerror.rank < 4 by decide)
  · refine ⟨?_, ?_, .moved _ hle⟩
    · simp only [if_neg hc']
      refine ⟨hm.moved cur, hge.trans hle, Nat.lt_of_not_le hend', hlen, rfl, ?_⟩
      dsimp only
      rw [hget']
      exact fun h => hc' (Option.some.inj h)
    · rw [hrank]
      simp only [if_neg hc']
      exact Nat.add_lt_add_of_le_of_lt hless (show Label.address.rank < 4 by decide)

theorem parseAddress_length {cp : List Char} {dest length : Nat} {buf buf' : Mem} {addrtype : Int}
    (h : parseAddress cp dest buf = (some (addrtype, length), buf')) : length ≤ 16 := by
  unfold parseAddress at h
  dsimp only at h
  split at h
  · cases h
    exact le_rfl
  · split at h
    · cases h
      decide
    · cases h

theorem address_decided (hl : s.label = .address) (hi : Inv bytes len s) :
    Decided bytes len s (address len s) := by
  have hstuck : Stuck len s ↔ len < destStart := by
    unfold Stuck
    rw [hl]
  have hrank : measure s = (s.hosts.last + 2 - s.hosts.cur) * 5 + 3 := by
    unfold measure
    rw [hl]
    rfl
  unfold Inv at hi
  rw [hl] at hi
  obtain ⟨hm, hge, hlt, hlen, hdest, hnewline⟩ := hi
  obtain ⟨save, hat, hget⟩ := hm.at? hge hlt
  unfold address
  rw [hat]
  dsimp only
  by_cases hroom : len < destStart
  · refine .fault (hstuck.2 hroom) (if_pos ?_)
    unfold destStart at hroom
    unfold Inside
    omega
  refine .goes (mt hstuck.1 hroom) ?_
  have hinside : Inside len 112 16 := by
    unfold destStart at hroom
    unfold Inside
    omega
  rw [if_neg (not_not.2 hinside)]
  by_cases hsmall : len - s.dest < 16
  · rw [if_pos hsmall]
    refine ⟨.inr ⟨_, hm.patched 0⟩, ?_, ⟨rfl, le_rfl, .inl rfl⟩⟩
    rw [hrank]
    exact Nat.add_lt_add_left (show Label.nospace.rank < 3 by decide) _
  rw [if_neg hsmall]
  have hback : (s.hosts.patch s.hosts.cur 0).patch (s.hosts.patch s.hosts.cur 0).cur save = s.hosts :=
    hm.restored 0 hget
  rw [hback]
  rcases hp : parseAddress (nameAt (s.hosts.patch s.hosts.cur 0) s.name) s.dest s.buf with
    ⟨_ | ⟨addrtype, length⟩, buf⟩
  · refine ⟨⟨hm, hge, hlt.le⟩, ?_, .refl _⟩
    rw [hrank]
    exact Nat.add_lt_add_left (show Label.parseerror.rank < 3 by decide) _
  · have hle := parseAddress_length hp
    refine ⟨⟨hm.moved _, Nat.lt_succ_of_le hge, hlt, ?_, ?_, show 0 < aliasesMax - 1 by decide, ?_⟩,
      ?_, .moved _ (Nat.le_succ _)⟩
    · rw [hdest]
      exact Nat.le_add_right _ _
    · dsimp only
      push_cast
      omega
    · dsimp only
      rw [Nat.succ_sub hge, Nat.succ_sub_one]
      exact hnewline
    · rw [hrank]
      show (s.hosts.last + 2 - (s.hosts.cur + 1)) * 5 + 2 < _
      omega

theorem behindName_goes (hl : s.label = .names) (hm : Mapped bytes s.hosts)
    (hge : s.hosts.hostmap < s.hosts.cur) (hlt : s.hosts.cur < s.hosts.last)
    (hstart : destStart ≤ s.dest) (hdest : (s.dest : Int) ≤ len)
    (ha : s.aliasidx < aliasesMax - 1) {t : St} (ht : measure s ≤ measure t)
    (hon : Onward t.hosts s.hosts) : Goes bytes len t (behindName s) := by
  have hrank : measure s = (s.hosts.last + 2 - s.hosts.cur) * 5 + 2 := by
    unfold measure
    rw [hl]
    rfl
  have hfinish (i : Nat) (hi : i < aliasesMax) (u : St) (hu : u.aliasidx = i)
      (hm' : Mapped bytes u.hosts) (hge' : u.hosts.hostmap ≤ u.hosts.cur)
      (hon' : Onward s.hosts u.hosts) : Goes bytes len t (finish u) := by
    unfold finish
    rw [if_neg (by omega)]
    exact ⟨.inr ⟨hm', hge'⟩, hon.trans hon'⟩
  have hmax : aliasesMax = 10 := rfl
  have hnext : Onward s.hosts { s.hosts with cur := s.hosts.cur + 1 } := .moved _ (Nat.le_succ _)
  obtain ⟨c, hat, hget⟩ := hm.at? hge.le hlt
  unfold behindName
  rw [hat]
  dsimp only
  split
  · exact hfinish (s.aliasidx + 1) (by omega) _ rfl (hm.moved _) (hge.le.trans (Nat.le_succ _))
      hnext
  · rename_i hc
    split
    · exact hfinish s.aliasidx (by omega) _ rfl hm hge.le (.refl _)
    · split
      · rename_i hroom
        refine ⟨?_, lt_of_lt_of_le ?_ ht, hon.trans hnext⟩
        · unfold Inv
          rw [hl]
          refine ⟨hm.moved _, hge.trans (Nat.lt_succ_self _), hlt, hstart, hdest, hroom, ?_⟩
          dsimp only
          rw [Nat.succ_sub hge.le, Nat.succ_sub_one, hget]
          exact fun h => hc (Option.some.inj h)
        · rw [hrank]
          unfold measure
          rw [hl]
          show (s.hosts.last + 2 - (s.hosts.cur + 1)) * 5 + 2 < _
          omega
      · exact hfinish (s.aliasidx + 1) (by omega) _ rfl (hm.moved _) (hge.le.trans (Nat.le_succ _))
          hnext

/-- `l+1` for a name that an `int` counts, with its terminator and one byte more. -/
theorem need_fits {n : Nat} (h : ¬intMax ≤ n + 1) :
    need n = some ((n : Int) + 2) := by
  unfold intMax at h
  unfold need
  have hbit : n < 2 ^ (32 - 1) := by
    norm_num
    omega
  rw [CInt.conv_low (by norm_num) hbit]
  refine CInt.sval_of_fits ?_
  rw [CInt.fits32]
  omega

/-- For a longer one it overflows, or is not positive. -/
theorem need_overflows {n : Nat} (h : intMax ≤ n + 1) (h' : n + 1 < 2 ^ 32) :
    need n = none ∨ ∃ x ≤ 0, need n = some x := by
  unfold intMax at h
  unfold need
  norm_num at h'
  by_cases hbit : n < 2 ^ (32 - 1)
  · rw [CInt.conv_low (by norm_num) hbit]
    refine .inl (CInt.sval_eq_none ?_)
    rw [CInt.fits32]
    omega
  · rw [CInt.conv_high (by norm_num) (Nat.le_of_not_lt hbit) (by norm_num; omega)]
    norm_num at hbit ⊢
    refine .inr ⟨_, ?_, CInt.sval_of_fits ?_⟩
    · omega
    · rw [CInt.fits32]
      omega

theorem copyName_fault (hlen : len ≤ intMax) (hlong : s.hosts.cur - start + 1 < 2 ^ 32)
    (hstart : destStart ≤ s.dest) (hdest : (s.dest : Int) ≤ len) (hm : Mapped bytes s.hosts)
    (ha : s.aliasidx < aliasesMax)
    (h : intMax ≤ s.hosts.cur - start + 1 ∨
      ((s.dest + (s.hosts.cur - start) + 2 : Nat) : Int) ≤ len ∧ s.hosts.last ≤ s.hosts.cur) :
    copyName len s start = .fault () := by
  unfold copyName
  dsimp only
  by_cases hbig : intMax ≤ s.hosts.cur - start + 1
  · rcases need_overflows hbig hlong with hneed | ⟨n, hneg, hneed⟩
    · rw [hneed]
      rfl
    · have houtside : ¬Inside len s.dest (s.hosts.cur - start + 1) := by
        unfold destStart at hstart
        unfold Inside
        omega
      rw [hneed, Option.elim_some, if_neg (by omega), if_pos (.inl houtside)]
  · obtain ⟨hroom, hend⟩ := h.resolve_left hbig
    have hinside : Inside len s.dest (s.hosts.cur - start + 1) := by
      unfold Inside
      omega
    have hat : s.hosts.at? s.hosts.cur = none := hm.at?_last hend
    rw [need_fits hbig, Option.elim_some, if_neg (by omega),
      if_neg (by rw [not_or, not_not]; exact ⟨hinside, Nat.not_le.2 ha⟩)]
    unfold behindName
    dsimp only
    rw [hat]

theorem copyName_goes (hl : s.label = .names) (hm : Mapped bytes s.hosts)
    (hge : s.hosts.hostmap < s.hosts.cur) (hstart : destStart ≤ s.dest)
    (ha : s.aliasidx < aliasesMax - 1)
    (h : ¬(intMax ≤ s.hosts.cur - start + 1 ∨
      ((s.dest + (s.hosts.cur - start) + 2 : Nat) : Int) ≤ len ∧ s.hosts.last ≤ s.hosts.cur))
    {t : St} (ht : measure s ≤ measure t) (hon : Onward t.hosts s.hosts) :
    Goes bytes len t (copyName len s start) := by
  obtain ⟨hbig, hend⟩ := not_or.1 h
  unfold copyName
  dsimp only
  rw [need_fits hbig, Option.elim_some]
  by_cases hsmall : len - s.dest < ((s.hosts.cur - start : Nat) : Int) + 2
  · rw [if_pos hsmall]
    refine ⟨.inr ⟨bytes, hm⟩, lt_of_lt_of_le ?_ ht, hon⟩
    unfold measure
    rw [hl]
    exact Nat.add_lt_add_left (show Label.nospace.rank < Label.names.rank by decide) _
  · have hinside : Inside len s.dest (s.hosts.cur - start + 1) := by
      unfold Inside
      omega
    have hmax : aliasesMax = 10 := rfl
    rw [if_neg hsmall, if_neg (by rw [not_or, not_not]; exact ⟨hinside, by omega⟩)]
    refine behindName_goes ?_ ?_ ?_ ?_ ?_ ?_ ?_ ?_ hon
    · exact hl
    · exact hm
    · exact hge
    · exact Nat.lt_of_not_le fun hle => hend ⟨by omega, hle⟩
    · exact hstart.trans ((Nat.le_add_right _ _).trans (Nat.le_succ _))
    · dsimp only
      push_cast
      omega
    · exact ha
    · refine le_trans (le_of_eq ?_) ht
      unfold measure
      rw [hl]

theorem names_decided (hlen : len ≤ intMax) (hl : s.label = .names) (hi : Inv bytes len s) :
    Decided bytes len s (names len s) := by
  unfold Inv at hi
  rw [hl] at hi
  obtain ⟨hm, hge, hle, hstart, hdest, ha, -⟩ := hi
  obtain ⟨start, hskip, hfrom, hfrom', -⟩ := hm.skip (p := isblank) hge.le hle
  obtain ⟨cur, hskip', hc, hc', -⟩ := hm.skip (p := nonspace) (hge.le.trans hfrom) hfrom'
  have hstuck : Stuck len s ↔ intMax ≤ cur - start + 1 ∨
      ((s.dest + (cur - start) + 2 : Nat) : Int) ≤ len ∧ s.hosts.last ≤ cur := by
    unfold Stuck
    rw [hl]
    dsimp only
    constructor
    · rintro ⟨start', cur', h, h', hs⟩
      rw [hskip] at h
      obtain rfl := Option.some.inj h
      rw [hskip'] at h'
      obtain rfl := Option.some.inj h'
      exact hs
    · exact fun h => ⟨start, cur, hskip, hskip', h⟩
  unfold names
  rw [hskip]
  dsimp only
  rw [hskip']
  dsimp only
  by_cases hs : Stuck len s
  · refine .fault hs (copyName_fault hlen ?_ hstart hdest (hm.moved cur) ?_ (hstuck.1 hs))
    · have hlast := hm.last
      have hshort := hm.short
      dsimp only
      omega
    · exact ha.trans (show aliasesMax - 1 < aliasesMax by decide)
  · refine .goes hs (copyName_goes ?_ ?_ ?_ ?_ ?_ ?_ ?_ (.moved _ (hfrom.trans hc)))
    · exact hl
    · exact hm.moved cur
    · exact hge.trans_le (hfrom.trans hc)
    · exact hstart
    · exact ha
    · exact mt hstuck.2 hs
    · unfold measure
      rw [hl]
      show (s.hosts.last + 2 - cur) * 5 + _ ≤ (s.hosts.last + 2 - s.hosts.cur) * 5 + _
      omega

theorem step_decided (hlen : len ≤ intMax) (hi : Inv bytes len s) :
    Decided bytes len s (step len s) := by
  unfold step
  cases hl : s.label with
  | again => exact again_decided hl hi
  | address => exact address_decided hl hi
  | names => exact names_decided hlen hl hi
  | parseerror =>
    have hns : ¬Stuck len s := by
      unfold Stuck
      rw [hl]
      exact id
    unfold Inv at hi
    rw [hl] at hi
    obtain ⟨hm, hge, hle⟩ := hi
    obtain ⟨cur, hskip, hc, hc', -⟩ := hm.skip (p := fun b => b != newline) hge hle
    dsimp only
    rw [hskip]
    refine .goes hns ⟨.inr ⟨hm.moved _, (hge.trans hc).trans (Nat.le_succ _)⟩, ?_,
      .moved _ (hc.trans (Nat.le_succ _))⟩
    unfold measure
    rw [hl]
    show (s.hosts.last + 2 - (cur + 1)) * 5 + 4 < (s.hosts.last + 2 - s.hosts.cur) * 5 + 1
    omega
  | nospace =>
    have hns : ¬Stuck len s := by
      unfold Stuck
      rw [hl]
      exact id
    unfold Inv at hi
    rw [hl] at hi
    refine .goes hns ⟨.inl ⟨?_, rfl⟩, .error _⟩
    rcases hi with ⟨hmap, -⟩ | ⟨bytes', hm⟩
    · exact (congrArg Statics.map (munmap_none hmap)).trans hmap
    · exact hm.munmap

theorem goes_again (hlen : len ≤ intMax) {s s' : St} (hi : Inv bytes len s)
    (hs : step len s = .again s') :
    Inv bytes len s' ∧ measure s' < measure s ∧ Onward s.hosts s'.hosts := by
  have hd := step_decided hlen hi
  rw [hs] at hd
  by_cases hst : Stuck len s
  · cases hd.1 hst
  · exact hd.2 hst

theorem goes_stop (hlen : len ≤ intMax) (hi : Inv bytes len s) {r : Answer}
    (hs : step len s = .stop r) : Final bytes r.st.hosts ∧ Onward s.hosts r.st.hosts := by
  have hd := step_decided hlen hi
  rw [hs] at hd
  by_cases hst : Stuck len s
  · cases hd.1 hst
  · exact hd.2 hst

/-- **A run comes to its end exactly if it meets no state that is stuck.** -/
theorem stops_iff (hlen : len ≤ intMax) (hi : Inv bytes len s) :
    (∃ r, Stops (step len) s r) ↔ ∀ s', Meets (step len) s s' → ¬Stuck len s' := by
  have hwf : WellFounded fun s' s : St => measure s' < measure s :=
    InvImage.wf measure Nat.lt_wfRel.wf
  refine stops_iff_not_stuck (I := Inv bytes len) hwf
    (fun s s' hi hs => (goes_again hlen hi hs).1) (fun s hi hns => ?_) (fun s hi hs r => ?_) hi
  · have hg := (step_decided hlen hi).2 hns
    cases hs : step len s with
    | again s' =>
      rw [hs] at hg
      exact .inr ⟨s', rfl, hg.2.1⟩
    | stop r => exact .inl ⟨r, rfl⟩
    | fault e =>
      rw [hs] at hg
      exact hg.elim
  · exact not_stops_fault ((step_decided hlen hi).1 hs)

/-- What holds in each state of a run. -/
theorem inv_meets (hlen : len ≤ intMax) (hi : Inv bytes len s) {s' : St}
    (h : Meets (step len) s s') : Inv bytes len s' ∧ Onward s.hosts s'.hosts := by
  refine h.invariant (I := fun t => Inv bytes len t ∧ Onward s.hosts t.hosts)
    (fun t t' ht hs => ?_) ⟨hi, .refl _⟩
  obtain ⟨hi', -, hon⟩ := goes_again hlen ht.1 hs
  exact ⟨hi', ht.2.trans hon⟩

/-- What a run leaves. -/
theorem final_of_stops (hlen : len ≤ intMax) (hi : Inv bytes len s) {r : Answer}
    (h : Stops (step len) s r) : Final bytes r.st.hosts ∧ Onward s.hosts r.st.hosts := by
  obtain ⟨s', ⟨hi', hon⟩, hstop⟩ := h.last (I := fun t => Inv bytes len t ∧ Onward s.hosts t.hosts)
    (fun t t' ht hs => ⟨(goes_again hlen ht.1 hs).1,
      ht.2.trans (goes_again hlen ht.1 hs).2.2⟩) ⟨hi, .refl _⟩
  obtain ⟨hfinal, hlast⟩ := goes_stop hlen hi' hstop
  exact ⟨hfinal, hon.trans hlast⟩

end

end Dietlibc.Netdb.Hosts
