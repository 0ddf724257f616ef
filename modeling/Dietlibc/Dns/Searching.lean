import Dietlibc.Strings.ByteSearch
import Mathlib.Data.List.TakeWhile

/-!
# The search domains

`res_search` and `__dns_gethostbyx_r` ask for the name, and then for the name with each of the domains
behind it, which they put together in `Buf`. What the queries return is a parameter. `none` is
undefined: an access outside `Buf`, or a name that does not end there.
-/

namespace Dietlibc.Dns

open CInt

/-- `MAXDNAME` -/
def maxdname : Nat := 1025

/-- `HOST_NOT_FOUND` -/
def hostNotFound : Int := 1

/-- What a query returns, and `*h_errnop`. -/
structure Queried where
  res : Int
  hErrno : Int

/-- Bytes written to `Buf`. -/
def putBuf (a : Nat) (v : List UInt8) (m : Mem) : Option Mem :=
  if a + v.length ≤ maxdname + 1 then some (m.store a v) else none

/-- `MAXDNAME-len-1` as a `size_t`. -/
def roomBehind (len : Nat) : Nat := usub 64 (usub 64 maxdname len) 1

/-- `Buf[len]='.'` and `memccpy(Buf+len+1,__dns_domains[count],0,MAXDNAME-len-1)`. Without a NUL the
whole room is written. -/
def appendDomain (signed : Bool) (len : Nat) (domain : List UInt8) (m : Mem) : Option Mem :=
  (putBuf len [46] m).bind fun m =>
  (Strings.memccpy signed 0 (len + 1) (domain ++ [0]) (roomBehind len) m).bind fun r =>
  if r.1.getD (len + 1 + roomBehind len) ≤ maxdname + 1 then some r.2 else none

/-- The string in `Buf`. -/
def stringIn (m : Mem) : Option (List UInt8) :=
  if 0 ∈ m.load 0 (maxdname + 1) then some ((m.load 0 (maxdname + 1)).takeWhile (· ≠ 0)) else none

/-- The names that were passed on, and the result. -/
structure Searched where
  names : List (List UInt8)
  res : Int

/-- The loop, with the domains from `count` on and the name at `tmp`. -/
def searchLoop (signed : Bool) (again : Queried → Bool) (queries : Nat → Queried) (len : Nat) :
    List (List UInt8) → Nat → List UInt8 → Mem → Option Searched
  | [], count, tmp, _ => some ⟨[tmp], (queries count).res⟩
  | domain :: domains, count, tmp, m =>
    if again (queries count) then
      (appendDomain signed len domain m).bind fun m =>
      (stringIn m).bind fun name =>
      (searchLoop signed again queries len domains (count + 1) name m).map fun r =>
        ⟨tmp :: r.names, r.res⟩
    else some ⟨[tmp], (queries count).res⟩

/-- `memmove(Buf,name,len)`, the terminators, and the loop. -/
def searchFrom (signed : Bool) (again : Queried → Bool) (queries : Nat → Queried)
    (domains : List (List UInt8)) (name : List UInt8) (len : Nat) (m : Mem) : Option Searched :=
  (putBuf 0 (name.take len) m).bind fun m =>
  (putBuf len [0] m).bind fun m =>
  (putBuf maxdname [0] m).bind fun m => searchLoop signed again queries len domains 0 name m

/-- The condition of the loop of `res_search`. -/
def failed (q : Queried) : Bool := q.res < 0

/-- `res_search`. The `int` is a `size_t` to `memmove`. -/
def resSearch (signed : Bool) (queries : Nat → Queried) (domains : List (List UInt8))
    (name : List UInt8) (m : Mem) : Option Searched :=
  if conv 32 name.length < 0 then none
  else searchFrom signed failed queries domains name (conv 32 name.length).toNat m

/-- The condition of the loop of `__dns_gethostbyx_r`, and the first `break` in it. -/
def unknown (q : Queried) : Bool := q.res ≠ 0 && !(q.res == -1 && q.hErrno ≠ hostNotFound)

/-- `__dns_gethostbyx_r`. -/
def gethostbyxR (signed : Bool) (queries : Nat → Queried) (domains : List (List UInt8))
    (name : List UInt8) (m : Mem) : Option Searched :=
  searchFrom signed unknown queries domains name name.length m

/-! ## What is asked of them -/

/-- The name, a dot, and as much of the domain as goes into `Buf`. -/
def candidate (name domain : List UInt8) : List UInt8 :=
  name ++ 46 :: domain.take (maxdname - 1 - name.length)

/-- The search stays in `Buf`, and passes on the name and then its candidates for the first domains. -/
def SearchRight (queries : Nat → Queried) (domains : List (List UInt8)) (name : List UInt8)
    (s : Option Searched) : Prop :=
  ∃ k r, s = some r ∧ k ≤ domains.length ∧ r.res = (queries k).res ∧
    r.names = name :: (domains.take k).map (candidate name)

variable {signed : Bool} {again : Queried → Bool} {queries : Nat → Queried}
  {domain name tmp d w : List UInt8} {domains : List (List UInt8)} {m m' : Mem} {a count len n : Nat}

/-! ## The buffer -/

theorem stringIn_of_load (hw : 0 ∉ w) (hlen : w.length ≤ maxdname)
    (h : m.load 0 (w.length + 1) = w ++ [0]) :
    stringIn m = some w := by
  obtain ⟨hmem, htake⟩ := Mem.takeWhile_load hw (Nat.lt_succ_of_le hlen) h
  rw [stringIn, if_pos hmem, htake]

theorem length_stringIn (h : stringIn m = some w) : w.length ≤ maxdname := by
  unfold stringIn at h
  by_cases hmem : 0 ∈ m.load 0 (maxdname + 1)
  · rw [if_pos hmem] at h
    obtain rfl := Option.some.inj h
    by_contra hcon
    have hsuf := List.takeWhile_prefix (fun c : UInt8 => decide (c ≠ 0)) (l := m.load 0 (maxdname + 1))
    have hall := hsuf.eq_of_length_le (by rw [Mem.length_load]; omega)
    rw [← hall] at hmem
    have hne := List.mem_takeWhile_imp hmem
    simp at hne
  · rw [if_neg hmem] at h
    cases h

/-- What stays in `Buf` from one candidate to the next. -/
structure Holding (name : List UInt8) (m : Mem) : Prop where
  name : m.load 0 name.length = name
  last : m maxdname = 0

theorem Holding.store (hm : Holding name m) {v : List UInt8} (h : name.length + v.length ≤ maxdname) :
    Holding name (m.store name.length v) :=
  ⟨(Mem.load_store_out (.inl (by omega))).trans hm.name, (Mem.store_out (.inr h)).trans hm.last⟩

theorem load_behind (hm : Holding name m) (v : List UInt8) :
    (m.store name.length v).load 0 (name.length + v.length) = name ++ v := by
  have h := Mem.load_store_append (m := m) (a := 0) (n := name.length) (d := v) rfl
  rwa [Nat.zero_add, hm.name] at h

theorem roomBehind_eq (h : len ≤ 1024) : roomBehind len = 1024 - len := by
  have hmax : usub 64 maxdname len = 1025 - len := usub_of_le (by rw [maxdname]; omega) (by decide)
  rw [roomBehind, hmax, usub_of_le (by omega) (by omega)]
  omega

/-- **A candidate** is put together in `Buf`. -/
theorem appendDomain_spec (signed : Bool) (hm : Holding name m) (h0 : 0 ∉ name) (hd : 0 ∉ domain)
    (hlen : name.length ≤ 1024) : ∃ m', appendDomain signed name.length domain m = some m' ∧
      stringIn m' = some (candidate name domain) ∧ Holding name m' := by
  have hput : putBuf name.length [46] m = some (m.store name.length [46]) :=
    if_pos (by rw [List.length_singleton, maxdname]; omega)
  have hroom := roomBehind_eq hlen
  have hmax : maxdname = 1025 := rfl
  have hcand : 0 ∉ candidate name domain := by
    unfold candidate
    intro hmem
    rcases List.mem_append.mp hmem with hmem | hmem
    · exact h0 hmem
    · rcases List.mem_cons.mp hmem with heq | hmem
      · exact absurd heq (by decide)
      · exact hd (List.mem_of_mem_take hmem)
  unfold appendDomain
  rw [hput, Option.bind_some]
  by_cases hcut : roomBehind name.length ≤ domain.length
  · -- the candidate fills `Buf` up to the NUL at its end
    have hv : candidate name domain = name ++ 46 :: domain.take (roomBehind name.length) := by
      rw [candidate, hroom, hmax]
    have hvlen : (46 :: domain.take (roomBehind name.length)).length = 1025 - name.length := by
      rw [List.length_cons, List.length_take]
      omega
    have hhold := hm.store (v := 46 :: domain.take (roomBehind name.length)) (by omega)
    have hload := load_behind hm (46 :: domain.take (roomBehind name.length))
    rw [Strings.memccpy_cut hd hcut, Option.bind_some, Option.getD_none, if_pos (by omega), Strings.store_cons]
    refine ⟨_, rfl, stringIn_of_load hcand ?_ ?_, hhold⟩
    · rw [hv, List.length_append]
      omega
    · have hclen : (candidate name domain).length = name.length +
          (46 :: domain.take (roomBehind name.length)).length := by rw [hv, List.length_append]
      have hlast := hhold.last
      rw [Mem.load_succ, hclen, hload, ← hv, Nat.zero_add, hvlen,
        show name.length + (1025 - name.length) = maxdname by omega]
      exact congrArg (fun b => candidate name domain ++ [b]) hlast
  · have hv : candidate name domain = name ++ 46 :: domain := by
      rw [candidate, List.take_of_length_le (by omega)]
    have hvlen : (46 :: (domain ++ [0])).length = domain.length + 2 := by
      rw [List.length_cons, List.length_append, List.length_singleton]
    have hhold := hm.store (v := 46 :: (domain ++ [0])) (by omega)
    have hload := load_behind hm (46 :: (domain ++ [0]))
    have hclen : (candidate name domain).length + 1 = name.length + (46 :: (domain ++ [0])).length := by
      rw [hv, List.length_append, List.length_cons]
      omega
    rw [Strings.memccpy_whole hd (not_le.mp hcut), Option.bind_some, Option.getD_some, if_pos (by omega),
      Strings.store_cons]
    refine ⟨_, rfl, stringIn_of_load hcand (by omega) ?_, hhold⟩
    rw [hclen, hload, hv]
    simp

/-! ## The loop -/

theorem searchLoop_stop (signed : Bool) (h : domains = [] ∨ again (queries count) = false)
    (tmp : List UInt8) (m : Mem) : searchLoop signed again queries len domains count tmp m =
      some ⟨[tmp], (queries count).res⟩ := by
  cases domains with
  | nil => rfl
  | cons domain domains =>
    have hstop := h.resolve_left (List.cons_ne_nil _ _)
    rw [searchLoop, hstop]
    rfl

/-- **The loop** from a buffer that holds the name. -/
theorem searchLoop_spec (signed : Bool) (again : Queried → Bool) (queries : Nat → Queried)
    (hm : Holding name m) (h0 : 0 ∉ name) (hd : ∀ d ∈ domains, 0 ∉ d)
    (hlen : name.length ≤ 1024) (count : Nat) (tmp : List UInt8) :
    ∃ k r, searchLoop signed again queries name.length domains count tmp m = some r ∧
      k ≤ domains.length ∧ r.res = (queries (count + k)).res ∧
      r.names = tmp :: (domains.take k).map (candidate name) := by
  induction domains generalizing count tmp m with
  | nil => exact ⟨0, _, rfl, Nat.le_refl 0, rfl, rfl⟩
  | cons domain domains ih =>
    cases hagain : again (queries count) with
    | false =>
      exact ⟨0, _, searchLoop_stop signed (.inr hagain) tmp m, Nat.zero_le _, rfl, rfl⟩
    | true =>
      obtain ⟨m', happ, hstr, hm'⟩ :=
        appendDomain_spec signed hm h0 (hd domain List.mem_cons_self) hlen
      obtain ⟨k, r, hr, hk, hres, hnames⟩ :=
        ih hm' (fun d hmem => hd d (List.mem_cons_of_mem _ hmem)) (count + 1) (candidate name domain)
      refine ⟨k + 1, ⟨tmp :: r.names, r.res⟩, ?_, Nat.succ_le_succ hk, ?_, ?_⟩
      · rw [searchLoop, hagain, if_pos rfl, happ, Option.bind_some, hstr, Option.bind_some, hr]
        rfl
      · rw [show count + (k + 1) = count + 1 + k by omega]
        exact hres
      · rw [List.take_succ_cons, List.map_cons, ← hnames]

/-- A name that is put together is no longer than `Buf`. -/
theorem searchLoop_second {r : Searched} (hagain : again (queries count) = true)
    (h : searchLoop signed again queries len (domain :: domains) count tmp m = some r) :
    ∃ w ws, r.names = tmp :: w :: ws ∧ w.length ≤ maxdname := by
  rw [searchLoop, if_pos hagain] at h
  obtain ⟨m', -, h⟩ := Option.bind_eq_some_iff.mp h
  obtain ⟨w, hw, h⟩ := Option.bind_eq_some_iff.mp h
  obtain ⟨r', hr', rfl⟩ := Option.map_eq_some_iff.mp h
  refine ⟨w, r'.names.tail, ?_, length_stringIn hw⟩
  have hhead : ∃ ws, r'.names = w :: ws := by
    cases domains with
    | nil =>
      obtain rfl := Option.some.inj hr'
      exact ⟨[], rfl⟩
    | cons d ds =>
      rw [searchLoop] at hr'
      split at hr'
      · obtain ⟨m'', -, hr'⟩ := Option.bind_eq_some_iff.mp hr'
        obtain ⟨w', -, hr'⟩ := Option.bind_eq_some_iff.mp hr'
        obtain ⟨r'', -, rfl⟩ := Option.map_eq_some_iff.mp hr'
        exact ⟨r''.names, rfl⟩
      · obtain rfl := Option.some.inj hr'
        exact ⟨[], rfl⟩
  obtain ⟨ws, hws⟩ := hhead
  rw [hws]
  rfl

/-- `Buf` in front of the loop. -/
theorem searchFrom_eq (signed : Bool) (again : Queried → Bool) (queries : Nat → Queried)
    (domains : List (List UInt8)) (m : Mem) (h : len ≤ maxdname) (hle : len ≤ name.length) :
    ∃ m', searchFrom signed again queries domains name len m =
        searchLoop signed again queries len domains 0 name m' ∧
      (name.length ≤ 1024 → len = name.length → Holding name m') := by
  have htake : (name.take len).length = len := List.length_take_of_le hle
  have hput : putBuf 0 (name.take len) m = some (m.store 0 (name.take len)) :=
    if_pos (by rw [htake]; omega)
  have hput' : ∀ {a : Nat} {m : Mem}, a ≤ maxdname → putBuf a [0] m = some (m.store a [0]) :=
    fun ha => if_pos (by rw [List.length_singleton]; omega)
  refine ⟨((m.store 0 (name.take len)).store len [0]).store maxdname [0], ?_, ?_⟩
  · rw [searchFrom, hput, Option.bind_some, hput' h, Option.bind_some, hput' (le_refl _),
      Option.bind_some]
  · intro hshort heq
    have hmax : maxdname = 1025 := rfl
    refine ⟨?_, ?_⟩
    · rw [Mem.load_store_out (.inl (by omega)), Mem.load_store_out (.inl (by omega)),
        Mem.load_store_self (by omega), heq, List.take_length]
    · exact Mem.store_in (d := [0]) (i := 0) Nat.one_pos

/-- **A search is right exactly if** the name goes into `Buf` and, where a domain is tried, leaves room
for the dot. -/
theorem searchFrom_right_iff (signed : Bool) (hle : len ≤ name.length)
    (heq : name.length ≤ 1024 → len = name.length) (h0 : 0 ∉ name) (hd : ∀ d ∈ domains, 0 ∉ d) :
    SearchRight queries domains name (searchFrom signed again queries domains name len m) ↔
      name.length ≤ 1024 ∨ len ≤ maxdname ∧ (domains = [] ∨ again (queries 0) = false) := by
  have hmax : maxdname = 1025 := rfl
  constructor
  · rintro ⟨k, r, hr, -, -, hnames⟩
    by_contra hcon
    obtain ⟨hlong, hcon⟩ := not_or.mp hcon
    by_cases hfit : len ≤ maxdname
    · obtain ⟨m', hloop, -⟩ := searchFrom_eq signed again queries domains m hfit hle
      rw [hloop] at hr
      cases domains with
      | nil => exact hcon ⟨hfit, .inl rfl⟩
      | cons domain domains =>
        have hagain : again (queries 0) = true := by
          by_contra hstop
          exact hcon ⟨hfit, .inr (by simpa using hstop)⟩
        obtain ⟨w, ws, hw, hwlen⟩ := searchLoop_second hagain hr
        rw [hw] at hnames
        cases k with
        | zero => cases hnames
        | succ k =>
          rw [List.take_succ_cons, List.map_cons] at hnames
          have hwc : w = candidate name domain := (List.cons.inj (List.cons.inj hnames).2).1
          rw [hwc, candidate, List.length_append, List.length_cons] at hwlen
          omega
    · rw [searchFrom] at hr
      obtain ⟨m₁, -, hr⟩ := Option.bind_eq_some_iff.mp hr
      obtain ⟨m₂, hput, -⟩ := Option.bind_eq_some_iff.mp hr
      rw [putBuf, if_neg (by rw [List.length_singleton]; omega)] at hput
      cases hput
  · rintro (hshort | ⟨hfit, hstop⟩)
    · obtain ⟨m', hloop, hhold⟩ := searchFrom_eq signed again queries domains m
        (show len ≤ maxdname by rw [heq hshort]; omega) hle
      rw [hloop, heq hshort]
      obtain ⟨k, r, hr, hk, hres, hnames⟩ := searchLoop_spec signed again queries
        (hhold hshort (heq hshort)) h0 hd hshort 0 name
      rw [Nat.zero_add] at hres
      exact ⟨k, r, hr, hk, hres, hnames⟩
    · obtain ⟨m', hloop, -⟩ := searchFrom_eq signed again queries domains m hfit hle
      rw [hloop, searchLoop_stop signed hstop]
      exact ⟨0, _, rfl, Nat.zero_le _, rfl, rfl⟩

/-- **The searches are right exactly if** the name leaves room for the dot, or goes into `Buf` and no
domain is tried. `res_search` counts with an `int`. -/
theorem searches_stay_iff (signed : Bool) (queries : Nat → Queried) (m : Mem) (h0 : 0 ∉ name)
    (hd : ∀ d ∈ domains, 0 ∉ d) :
    (SearchRight queries domains name (resSearch signed queries domains name m) ↔
      name.length ≤ 1024 ∨ (0 ≤ conv 32 name.length ∧ conv 32 name.length ≤ 1025) ∧
        (domains = [] ∨ failed (queries 0) = false)) ∧
    (SearchRight queries domains name (gethostbyxR signed queries domains name m) ↔
      name.length ≤ 1024 ∨ name.length = 1025 ∧ (domains = [] ∨ unknown (queries 0) = false)) := by
  have hmax : maxdname = 1025 := rfl
  have hshort : name.length ≤ 1024 → conv 32 name.length = name.length :=
    fun h => conv_low (by decide) (by omega)
  constructor
  · unfold resSearch
    by_cases hneg : conv 32 name.length < 0
    · rw [if_pos hneg]
      refine iff_of_false ?_ (by omega)
      rintro ⟨k, r, hr, -⟩
      cases hr
    · have hbounds := conv_bounds32 name.length
      have hmod := conv_emod32 name.length
      rw [if_neg hneg, searchFrom_right_iff signed (by omega) (by omega) h0 hd]
      refine or_congr Iff.rfl (and_congr_left' ?_)
      omega
  · unfold gethostbyxR
    rw [searchFrom_right_iff signed le_rfl (fun _ => rfl) h0 hd]
    constructor
    · rintro (h | ⟨h, hstop⟩)
      · exact .inl h
      · exact (Nat.lt_or_ge name.length 1025).imp (by omega) fun hge => ⟨by omega, hstop⟩
    · rintro (h | ⟨h, hstop⟩)
      · exact .inl h
      · exact .inr ⟨h.le, hstop⟩

/-- The name `"a"`, which is not known, and the domain `"b"`. -/
theorem searches_stay_iff_ab :
    let queries : Nat → Queried := fun _ => ⟨-1, 1⟩
    let name : List UInt8 := [97]
    let domains : List (List UInt8) := [[98]]
    (SearchRight queries domains name (resSearch true queries domains name fun _ => 7) ↔
      name.length ≤ 1024 ∨ (0 ≤ conv 32 name.length ∧ conv 32 name.length ≤ 1025) ∧
        (domains = [] ∨ failed (queries 0) = false)) ∧
    (SearchRight queries domains name (gethostbyxR true queries domains name fun _ => 7) ↔
      name.length ≤ 1024 ∨ name.length = 1025 ∧ (domains = [] ∨ unknown (queries 0) = false)) :=
  searches_stay_iff true (fun _ => ⟨-1, 1⟩) (fun _ => 7) (by decide) (by decide)

/-- A name of 1025 bytes and the domain `"b"`: the dot is written over the NUL. -/
theorem searches_overflow : ¬∀ (signed : Bool) (queries : Nat → Queried) (m : Mem) (name : List UInt8)
    (domains : List (List UInt8)), 0 ∉ name → domains.length ≤ 8 → (∀ d ∈ domains, 0 ∉ d) →
    SearchRight queries domains name (resSearch signed queries domains name m) ∧
      SearchRight queries domains name (gethostbyxR signed queries domains name m) := by
  intro h
  have h0 : (0 : UInt8) ∉ List.replicate 1025 97 := fun hmem =>
    absurd (List.eq_of_mem_replicate hmem) (by decide)
  have hd : ∀ d ∈ ([[98]] : List (List UInt8)), 0 ∉ d := by decide
  have hright := (h true (fun _ => ⟨-1, 1⟩) (fun _ => 7) _ [[98]] h0 (by decide) hd).2
  unfold gethostbyxR at hright
  rw [searchFrom_right_iff true le_rfl (fun _ => rfl) h0 hd, List.length_replicate] at hright
  rcases hright with hlt | ⟨-, hnil | hstop⟩
  · omega
  · cases hnil
  · cases hstop

end Dietlibc.Dns
