import Mathlib.Data.List.TakeWhile
import Dietlibc.Dns.GetHost

/-!
# The buffer of a lookup

What entering a name and copying an address do to the caller's buffer. `HostOk` is the invariant
of the loop over the answers: the tables have room for what is left to come, and the string at
`h_name` stays as it was entered. The first name is the only one that later names are compared
with, so `nextCur` tells from it alone where the next string goes.
-/

namespace Dietlibc.Dns

open Machine

/-! ## Strings in memory -/

/-- The string `s` stands at `a`. -/
def HasString (m : Mem) : Nat → List UInt8 → Prop
  | a, [] => m a = 0
  | a, b :: s => m a = b ∧ b ≠ 0 ∧ HasString m (a + 1) s

theorem hasString_of_load {m : Mem} {a : Nat} {s : List UInt8} (h0 : 0 ∉ s)
    (h : Mem.load m a (s.length + 1) = s ++ [0]) : HasString m a s := by
  induction s generalizing a with
  | nil => simpa [Mem.load, HasString] using h
  | cons b s ih =>
    rw [List.length_cons, Mem.load_cons, List.cons_append] at h
    obtain ⟨hb, hs⟩ := List.cons.inj h
    obtain ⟨hb0, hs0⟩ := not_or.mp (fun h => h0 (List.mem_cons.mpr h))
    exact ⟨hb, fun h => hb0 h.symm, ih hs0 hs⟩

theorem hasString_store (m : Mem) (a : Nat) {s : List UInt8} (h0 : 0 ∉ s) :
    HasString (m.store a (s ++ [0])) a s :=
  hasString_of_load h0 (Mem.load_store_self (by simp))

theorem HasString.congr {m m' : Mem} {a : Nat} {s : List UInt8} (h : HasString m a s)
    (he : ∀ i, a ≤ i → i < a + s.length + 1 → m' i = m i) : HasString m' a s := by
  induction s generalizing a with
  | nil => exact (he a le_rfl (by omega)).trans h
  | cons b s ih =>
    obtain ⟨hb, hb0, hs⟩ := h
    rw [List.length_cons] at he
    refine ⟨(he a le_rfl (by omega)).trans hb, hb0, ih hs fun i h1 h2 => he i (by omega) (by omega)⟩

/-- A write behind the string leaves it alone. -/
theorem HasString.store {m : Mem} {a b : Nat} {s d : List UInt8} (h : HasString m a s)
    (hle : a + s.length + 1 ≤ b) : HasString (m.store b d) a s :=
  h.congr fun i _ hi => Mem.store_out (.inl (by omega))

theorem sameString_of_hasString {buflen a b : Nat} {m : Mem} {s t : List UInt8}
    (hs : HasString m a s) (ht : HasString m b t) (ha : a + s.length < buflen)
    (hb : b + t.length < buflen) : sameString buflen m a b = .ok (decide (s = t)) := by
  induction s generalizing a b t with
  | nil =>
    rw [sameString, if_pos ⟨by omega, by omega⟩]
    cases t with
    | nil =>
      have hm : m a = 0 := hs
      rw [if_neg (by rw [hm, ht]; simp), if_pos hm]
      rfl
    | cons c t =>
      have hm : m a = 0 := hs
      rw [if_pos (by rw [hm, ht.1]; exact fun h => ht.2.1 h.symm)]
      rfl
  | cons c s ih =>
    rw [List.length_cons] at ha
    rw [sameString, if_pos ⟨by omega, by omega⟩]
    cases t with
    | nil =>
      rw [if_pos (by rw [hs.1, ht]; exact hs.2.1)]
      rfl
    | cons d t =>
      rw [List.length_cons] at hb
      by_cases hcd : c = d
      · rw [if_neg (by rw [hs.1, ht.1, hcd]; simp), if_neg (by rw [hs.1]; exact hs.2.1),
          ih hs.2.2 ht.2.2 (by omega) (by omega)]
        simp [hcd]
      · rw [if_pos (by rw [hs.1, ht.1]; exact hcd)]
        simp [hcd]

theorem zero_not_mem_nameString (name : List UInt8) : 0 ∉ nameString name := by
  intro h
  have := List.mem_takeWhile_imp h
  simp at this

/-! ## The invariant -/

/-- Where the string behind `s` goes: a name that is the first one again takes no place. -/
def nextCur (cur : Nat) (first : Option (List UInt8)) (s : List UInt8) : Nat :=
  if first = some s then cur else cur + (s.length ||| 3) + 1

theorem or_three_le (n : Nat) : n ||| 3 ≤ n + 3 := by
  have hd : (n ||| 3) / 2 ^ 2 = n / 2 ^ 2 ||| 3 / 2 ^ 2 := Nat.or_div_two_pow
  have h0 : n / 2 ^ 2 ||| 3 / 2 ^ 2 = n / 2 ^ 2 := Nat.or_zero _
  omega

theorem le_or_three (n : Nat) : n ≤ n ||| 3 := Nat.left_le_or

/-- `first` is the string at `h_name`, and `q` answers are left. -/
structure HostOk (buflen q : Nat) (h : Host) (first : Option (List UInt8)) : Prop where
  names_le : h.names ≤ h.ips
  ips_le : h.ips + q ≤ 8
  none_iff : first = none ↔ h.names = 0
  string : ∀ s, first = some s → ∃ a, h.hName = some a ∧ HasString h.mem a s ∧
    a + s.length + 1 ≤ h.cur ∧ a + s.length < buflen

section

variable {buflen q : Nat} {h : Host} {first : Option (List UInt8)}

theorem write_ok {d : List UInt8} (hd : h.cur + d.length ≤ buflen) :
    h.write buflen d = .ok { h with mem := h.mem.store h.cur d } :=
  if_pos hd

theorem setSlot_ok {base i : Nat} {table : List (Option Nat)} {v : Option Nat}
    (hb : base + 9 * ptrSize ≤ buflen) (hi : i < 9) :
    setSlot buflen base table i v = .ok (table.set i v) := by
  unfold ptrSize at hb
  exact if_pos ⟨hi, by unfold ptrSize; omega⟩

theorem setAlias_ok {i : Nat} {v : Option Nat} (hb : 145 ≤ buflen) (hi : i < 9) :
    h.setAlias buflen i v = .ok { h with aliases := h.aliases.set i v } := by
  unfold Host.setAlias
  rw [setSlot_ok (by unfold ptrSize; omega) hi]
  rfl

theorem setAddr_ok {i : Nat} {v : Option Nat} (hb : 145 ≤ buflen) (hi : i < 9) :
    h.setAddr buflen i v = .ok { h with addrs := h.addrs.set i v } := by
  unfold Host.setAddr
  rw [setSlot_ok (by unfold ptrSize; omega) hi]
  rfl

/-- A name with no room for it is written behind the buffer. -/
theorem enter_fault {name : List UInt8} (hfit : ¬ h.cur + (nameString name).length + 1 ≤ buflen) :
    h.enter buflen name = .error .write := by
  have hwrite : h.write buflen (nameString name ++ [0]) = .error .write := by
    refine if_neg ?_
    rw [List.length_append, List.length_singleton]
    omega
  rw [Host.enter, hwrite]
  rfl

/-- Pointing at the new string changes nothing that later steps look at, the first name apart. -/
theorem point_ok (hb : 145 ≤ buflen) (hn : h.names ≤ 9) :
    ∃ g, h.point buflen = .ok g ∧ g.cur = h.cur ∧ g.names = h.names ∧ g.ips = h.ips ∧
      g.mem = h.mem ∧ g.hName = if h.names = 0 then some h.cur else h.hName := by
  unfold Host.point
  by_cases h0 : h.names = 0
  · rw [if_pos h0, if_pos h0]
    exact ⟨_, rfl, rfl, rfl, rfl, rfl, rfl⟩
  · rw [if_neg h0, if_neg h0, setAlias_ok hb (by omega)]
    exact ⟨_, rfl, rfl, rfl, rfl, rfl, rfl⟩

theorem advance_ok {slen : Nat} {new : Bool} (hnew : h.isNew buflen = .ok new) :
    h.advance buflen slen = .ok (if new then
      { h with cur := h.cur + (slen ||| 3) + 1, names := h.names + 1 } else h) := by
  unfold Host.advance
  rw [hnew]
  cases new <;> rfl

theorem isNew_zero (h0 : h.names = 0) : h.isNew buflen = .ok true := if_pos h0

theorem isNew_pos {a : Nat} {s t : List UInt8} (h0 : h.names ≠ 0) (ha : h.hName = some a)
    (hs : HasString h.mem h.cur s) (ht : HasString h.mem a t) (hfit : h.cur + s.length < buflen)
    (hfit' : a + t.length < buflen) : h.isNew buflen = .ok (decide (s ≠ t)) := by
  unfold Host.isNew
  rw [if_neg h0, ha]
  dsimp only
  rw [sameString_of_hasString hs ht hfit hfit']
  simp [Except.map]

/-- The two stores behind a name that was entered bring the invariant back. -/
theorem close_ok {a : Nat} {t : List UInt8} (hb : 145 ≤ buflen) (hn : h.names ≤ h.ips + 1)
    (hi : h.ips + 1 + q ≤ 8) (h0 : h.names ≠ 0) (hname : h.hName = some a)
    (ht : HasString h.mem a t) (hle : a + t.length + 1 ≤ h.cur) (hlt : a + t.length < buflen) :
    ∃ g, (do
      let h ← h.setAlias buflen (h.names - 1) none
      let h ← h.setAddr buflen h.ips (some h.cur)
      return { h with ips := h.ips + 1 } : Except Fault Host) = .ok g ∧
        HostOk buflen q g (some t) ∧ g.cur = h.cur := by
  rw [setAlias_ok hb (by omega)]
  dsimp only [bind, Except.bind]
  rw [setAddr_ok hb (by show h.ips < 9; omega)]
  refine ⟨_, rfl, ⟨hn, hi, iff_of_false nofun h0, ?_⟩, rfl⟩
  intro t' ht'
  obtain rfl : t = t' := Option.some.inj ht'
  exact ⟨a, hname, ht, hle, hlt⟩

/-- **Entering a name** that has room keeps the invariant. -/
theorem enter_ok {name : List UInt8} (hb : 145 ≤ buflen) (hok : HostOk buflen (q + 1) h first)
    (hfit : h.cur + (nameString name).length + 1 ≤ buflen) :
    ∃ h', h.enter buflen name = .ok h' ∧
      HostOk buflen q h' (first.or (some (nameString name))) ∧
      h'.cur = nextCur h.cur first (nameString name) := by
  obtain ⟨hnames, hips, hnone, hstring⟩ := hok
  have hwrite : h.write buflen (nameString name ++ [0]) = _ :=
    write_ok (by rw [List.length_append, List.length_singleton]; omega)
  have hnew := hasString_store h.mem h.cur (zero_not_mem_nameString name)
  rw [Host.enter, hwrite]
  dsimp only [bind, Except.bind]
  generalize nameString name = s at *
  have hs3 := le_or_three s.length
  obtain ⟨g, hg, hcur, hgn, hgi, hmem, hname⟩ := point_ok hb
    (h := { h with mem := h.mem.store h.cur (s ++ [0]) }) (by show h.names ≤ 9; omega)
  rw [hg]
  dsimp only at *
  cases first with
  | none =>
    have h0 : h.names = 0 := hnone.mp rfl
    rw [h0, if_pos rfl] at hname
    rw [advance_ok (isNew_zero (hgn.trans h0))]
    obtain ⟨k, hk, hkok, hkcur⟩ := close_ok (q := q) (a := h.cur) (t := s) hb
      (h := { g with cur := g.cur + (s.length ||| 3) + 1, names := g.names + 1 })
      (by show g.names + 1 ≤ g.ips + 1; omega) (by show g.ips + 1 + q ≤ 8; omega)
      (Nat.succ_ne_zero _) hname (by show HasString g.mem _ _; rwa [hmem])
      (by show _ ≤ g.cur + _ + 1; omega) (by omega)
    refine ⟨k, hk, hkok, ?_⟩
    rw [hkcur, nextCur, if_neg nofun, ← hcur]
  | some t =>
    have h0 : h.names ≠ 0 := fun h0 => nomatch hnone.mpr h0
    obtain ⟨a, ha, hat, hle, hlt⟩ := hstring t rfl
    have hat' : HasString g.mem a t := by
      rw [hmem]
      exact hat.store hle
    rw [if_neg h0, ha] at hname
    rw [advance_ok (isNew_pos (hgn.trans_ne h0) hname (by rw [hmem, hcur]; exact hnew) hat'
      (by omega) hlt)]
    by_cases hst : s = t
    · -- the name is the first one again: the next string goes over it
      obtain ⟨k, hk, hkok, hkcur⟩ := close_ok (q := q) hb (h := g) (by omega) (by omega)
        (hgn.trans_ne h0) hname hat' (by omega) hlt
      rw [if_neg (by simp [hst])]
      refine ⟨k, hk, hkok, ?_⟩
      rw [hkcur, nextCur, if_pos (by rw [hst]), hcur]
    · obtain ⟨k, hk, hkok, hkcur⟩ := close_ok (q := q) hb
        (h := { g with cur := g.cur + (s.length ||| 3) + 1, names := g.names + 1 })
        (by show g.names + 1 ≤ g.ips + 1; omega) (by show g.ips + 1 + q ≤ 8; omega)
        (Nat.succ_ne_zero _) hname hat' (by show _ ≤ g.cur + _ + 1; omega) hlt
      rw [if_pos (by simp [hst])]
      refine ⟨k, hk, hkok, ?_⟩
      rw [hkcur, nextCur, if_neg (fun h => hst (Option.some.inj h).symm), ← hcur]

/-- **Copying an address** that the reply has to the end, with room for it. -/
theorem putAddress_ok {p : Packet} {n tmp : Nat} (hb : 145 ≤ buflen)
    (hok : HostOk buflen q h first) (hp : tmp + n ≤ p.length) (hfit : h.cur + n ≤ buflen) :
    ∃ h', h.putAddress p buflen n tmp = .ok h' ∧ HostOk buflen q h' first ∧
      h'.cur = h.cur + n := by
  obtain ⟨hnames, hips, hnone, hstring⟩ := hok
  have hlen : ((p.drop tmp).take n).length = n := by
    rw [List.length_take, List.length_drop]
    omega
  unfold Host.putAddress
  rw [if_neg (by omega), write_ok (by rw [hlen]; exact hfit)]
  dsimp only [bind, Except.bind, pure, Except.pure]
  rw [setAddr_ok hb (by show h.ips < 9; omega)]
  refine ⟨_, rfl, ⟨hnames, hips, hnone, fun s hs => ?_⟩, rfl⟩
  obtain ⟨a, ha, hat, hle, hlt⟩ := hstring s hs
  exact ⟨a, ha, hat.store hle, hle.trans (Nat.le_add_right _ _), hlt⟩

theorem putAddress_fault {p : Packet} {n tmp : Nat} (hp : p.length < tmp + n) :
    h.putAddress p buflen n tmp = .error .read := by
  unfold Host.putAddress
  rw [if_pos hp]
  rfl

end

end Dietlibc.Dns
