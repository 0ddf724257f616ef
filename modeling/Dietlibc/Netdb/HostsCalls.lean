import Dietlibc.Netdb.HostsRuns

/-!
# Sequences of calls

`Between` is what holds between two calls: there is no mapping, and `hostmap` says so, or `hostmap` is
where the file is. A sequence of calls survives exactly if none of them meets a state that is stuck
(`Clear`). A program that is careful about the buffer meets none, if the file ends with a newline and
is mapped where mappings are.
-/

namespace Dietlibc.Netdb.Hosts

open Machine Accounts
open Dns (isspace)

/-- The static variables of a program that starts. -/
def start : Statics := ⟨0, 0, 0, none⟩

/-- `len` is an `int`, and nothing is mapped at the null pointer or up to the last address. -/
def Sound (file : List UInt8) : Call → Prop
  | .gethostent len _ k => len ≤ intMax ∧
      ∀ base, k.place = some base → 0 < base ∧ base + (content file).length < 2 ^ 64 - 1
  | _ => True

/-- What holds between two calls. -/
def Between (file : List UInt8) (h : Statics) : Prop :=
  (h.map = none ∧ (h.hostmap = 0 ∨ h.hostmap = failed)) ∨
    Mapped (content file) h ∧ h.hostmap ≤ h.cur

/-- The states of a call that are met from the code at `again:` on are not stuck. -/
def Unstuck (file : List UInt8) : Call → Statics → Prop
  | .gethostent len s k, h => (enter file k h).2 = true →
      ∀ s', Meets (step len) { s with label := .again, hosts := (enter file k h).1 } s' →
        ¬Stuck len s'
  | _, _ => True

/-- No call of the sequence meets a state that is stuck. -/
def Clear (file : List UInt8) : List Call → Statics → Prop
  | [], _ => True
  | c :: cs, h => Unstuck file c h ∧ ∀ h', Ends file c h h' → Clear file cs h'

section

variable {file : List UInt8} {h h' : Statics} {c : Call} {k : Kernel}

theorem Between.whole (hb : Between file h) : Whole file h :=
  hb.imp_right fun hm => hm.1.map

/-- The start of a call: it ends there, or there is a mapping or the call behind a failed one. -/
theorem enter_spec (hb : Between file h)
    (hk : ∀ base, k.place = some base → 0 < base ∧ base + (content file).length < 2 ^ 64 - 1) :
    Between file (enter file k h).1 ∧
      ((enter file k h).2 = true → Final (content file) (enter file k h).1) := by
  unfold enter
  by_cases hnull : h.hostmap ≠ 0
  · rw [if_pos hnull]
    exact ⟨hb, fun _ => hb.imp_left fun hnone => ⟨hnone.1, hnone.2.resolve_left hnull⟩⟩
  rw [if_neg hnull]
  have hnone : h.map = none := by
    rcases hb with hnone | hm
    · exact hnone.1
    · exact absurd hm.1.pos.ne' hnull
  by_cases hopen : k.opened = true
  · rw [if_neg (show ¬(!k.opened) = true by rw [hopen]; decide)]
    dsimp only
    cases hplace : k.place with
    | none =>
      have herror : ({ h with hostlen := file.length % 2 ^ 32 } : Statics).munmap =
          { h with hostlen := file.length % 2 ^ 32 } := munmap_none hnone
      exact ⟨.inl ⟨(congrArg Statics.map herror).trans hnone, .inr rfl⟩, nofun⟩
    | some base =>
      obtain ⟨hpos, hroom⟩ := hk base hplace
      have hm : Mapped (content file)
          ⟨base, file.length % 2 ^ 32, base, some (base, file.take (file.length % 2 ^ 32))⟩ :=
        ⟨rfl, (length_content file).symm, by
          rw [length_content]
          exact Nat.mod_lt _ (by decide), hpos, hroom⟩
      exact ⟨.inr ⟨hm, le_rfl⟩, fun _ => .inr ⟨hm, le_rfl⟩⟩
  · rw [if_pos (show (!k.opened) = true by simpa using hopen)]
    exact ⟨hb, nofun⟩

theorem ends_unique {h₁ h₂ : Statics} (h1 : Ends file c h h₁) (h2 : Ends file c h h₂) : h₁ = h₂ := by
  cases c with
  | gethostent len s k =>
    unfold Ends at h1 h2
    dsimp only at h1 h2
    split at h1
    · rename_i hgo
      rw [if_pos hgo] at h2
      obtain ⟨r, hr, rfl⟩ := h1
      obtain ⟨r', hr', rfl⟩ := h2
      rw [stops_unique hr hr']
    · rename_i hgo
      rw [if_neg hgo] at h2
      exact h1.trans h2.symm
  | sethostent | endhostent => exact h1.trans h2.symm

/-- **A call comes to its end exactly if it meets no state that is stuck.** -/
theorem ends_iff (hb : Between file h) (hs : Sound file c) :
    (∃ h', Ends file c h h') ↔ Unstuck file c h := by
  cases c with
  | gethostent len s k =>
    obtain ⟨-, hfinal⟩ := enter_spec hb hs.2
    unfold Ends Unstuck
    dsimp only
    by_cases hgo : (enter file k h).2 = true
    · have hstops := stops_iff (s := { s with label := .again, hosts := (enter file k h).1 }) hs.1
        (hfinal hgo)
      simp only [hgo, if_true, forall_const]
      rw [← hstops]
      exact ⟨fun ⟨_, r, hr, _⟩ => ⟨r, hr⟩, fun ⟨r, hr⟩ => ⟨_, r, hr, rfl⟩⟩
    · simp only [if_neg hgo]
      exact iff_of_true ⟨_, rfl⟩ fun hgo' => absurd hgo' hgo
  | sethostent | endhostent => exact iff_of_true ⟨_, rfl⟩ trivial

/-- What a call leaves to the next one. -/
theorem Ends.between (he : Ends file c h h') (hb : Between file h) (hs : Sound file c) :
    Between file h' := by
  cases c with
  | gethostent len s k =>
    obtain ⟨hbetween, hfinal⟩ := enter_spec hb hs.2
    unfold Ends at he
    dsimp only at he
    split at he
    · rename_i hgo
      obtain ⟨r, hr, rfl⟩ := he
      have hleft : Final (content file) r.st.hosts :=
        (final_of_stops (s := { s with label := .again, hosts := (enter file k h).1 }) hs.1
          (hfinal hgo) hr).1
      exact hleft.imp_left fun hnone => ⟨hnone.1, .inr hnone.2⟩
    · rw [he]
      exact hbetween
  | sethostent =>
    obtain rfl : h' = h.sethostent := he
    exact hb.imp id fun hm => ⟨hm.1.moved _, le_rfl⟩
  | endhostent =>
    obtain rfl : h' = h.endhostent := he
    refine .inl ⟨?_, .inl rfl⟩
    rcases hb with ⟨hnone, -⟩ | ⟨hm, -⟩
    · exact (congrArg Statics.map (munmap_none hnone)).trans hnone
    · exact hm.munmap

theorem calls_survive (calls : List Call) (hb : Between file h) (hs : ∀ c ∈ calls, Sound file c) :
    Survives file calls h ↔ Clear file calls h := by
  induction calls generalizing h with
  | nil => exact Iff.rfl
  | cons c cs ih =>
    have hc := hs c List.mem_cons_self
    have hcs : ∀ c ∈ cs, Sound file c := fun c h => hs c (List.mem_cons_of_mem _ h)
    constructor
    · rintro ⟨h', he, -, hrest⟩
      refine ⟨(ends_iff hb hc).1 ⟨h', he⟩, fun h'' he' => ?_⟩
      rw [ends_unique he' he]
      exact (ih (he.between hb hc) hcs).1 hrest
    · rintro ⟨hun, hrest⟩
      obtain ⟨h', he⟩ := (ends_iff hb hc).2 hun
      have hb' := he.between hb hc
      exact ⟨h', he, hb'.whole, (ih hb' hcs).2 (hrest h' he)⟩

end

/-! ## Prudent programs -/

/-- Where mappings are: at addresses that an `unsigned int` does not count. -/
def mapMin : Nat := 2 ^ 32

/-- The file ends with a newline, and no name in it is longer than an `int` counts. -/
def Proper (file : List UInt8) : Prop :=
  (content file).getLast? = some newline ∧ (content file).length < intMax

/-- The buffer is refused at once, or has room for the pointers, and `mmap` does not fail. -/
def Prudent : Call → Prop
  | .gethostent len _ k =>
    (0 ≤ len ∧ len < sizeMin ∨ destStart ≤ len) ∧ ∃ base, k.place = some base ∧ mapMin ≤ base
  | _ => True

/-- Behind a failed call, `cur` is not in front of what `gethostent_r` takes for the end. -/
def Past (h : Statics) : Prop :=
  (h.hostmap = failed → h.last ≤ h.cur) ∧ (h.hostmap = 0 ∨ mapMin ≤ h.hostmap)

section

variable {file bytes : List UInt8} {h h' : Statics} {c : Call} {k : Kernel} {len : Int} {s : St}
  {a a' b : Nat} {p : UInt8 → Bool} {x : UInt8}

/-- A scan does not go behind a byte that it stops at. -/
theorem Mapped.skip_le (hm : Mapped bytes h) (hge : h.hostmap ≤ a) (hle : a ≤ b)
    (hlt : b < h.last) (hget : bytes[b - h.hostmap]? = some x) (hx : p x = false)
    (hskip : h.skip p a = some a') : a' ≤ b := by
  unfold Statics.skip at hskip
  rw [if_neg (by omega), hm.from? hge (by omega), Option.map_some] at hskip
  obtain rfl := Option.some.inj hskip
  by_contra hbehind
  have hdrop : (bytes.drop (a - h.hostmap))[b - a]? = some x := by
    rw [List.getElem?_drop, ← hget]
    congr 1
    omega
  obtain ⟨t, ht⟩ := List.takeWhile_prefix p (l := bytes.drop (a - h.hostmap))
  rw [← ht, List.getElem?_append_left (by omega)] at hdrop
  have hp := List.mem_takeWhile_imp (List.mem_of_getElem? hdrop)
  rw [hx] at hp
  cases hp

theorem Past.onward (hp : Past h) (hf : Final bytes h) (hbytes : bytes ≠ []) (ho : Onward h h') :
    Past h' := by
  have hmax : failed = 2 ^ 64 - 1 := rfl
  have hmin : mapMin = 2 ^ 32 := rfl
  have hcur := ho.cur
  constructor
  · intro hfailed
    unfold Statics.last
    rw [hfailed, ho.hostlen]
    rcases hf with ⟨-, hf⟩ | ⟨hm, hge⟩
    · have hlast := hp.1 hf
      unfold Statics.last at hlast
      rw [hf] at hlast
      exact hlast.trans hcur
    · have hlen := List.length_pos_iff.2 hbytes
      have hshort := hm.short
      have hlow := hp.2.resolve_left hm.pos.ne'
      rw [hm.hostlen, hmax, show 2 ^ 64 - 1 + bytes.length = bytes.length - 1 + 2 ^ 64 by omega,
        Nat.add_mod_right, Nat.mod_eq_of_lt (by omega)]
      omega
  · rcases ho.hostmap with hsame | hfailed
    · rw [hsame]
      exact hp.2
    · rw [hfailed]
      exact .inr (by decide)

/-- In a file that ends with a newline, a name does not end the file. -/
theorem names_inside (hi : Inv bytes len s) (hl : s.label = .names)
    (hlast : bytes.getLast? = some newline) (hlen : bytes.length < intMax) : ¬Stuck len s := by
  unfold Inv at hi
  rw [hl] at hi
  obtain ⟨hm, hge, hle, -, -, -, hnewline⟩ := hi
  have hend := hm.last
  have hpos : 0 < bytes.length := by
    cases bytes with
    | nil => cases hlast
    | cons b bs => exact Nat.succ_pos _
  rw [List.getLast?_eq_getElem?] at hlast
  have hback : s.hosts.last - 1 - s.hosts.hostmap = bytes.length - 1 := by omega
  have hget : bytes[s.hosts.last - 1 - s.hosts.hostmap]? = some newline := by rw [hback, hlast]
  have hlt : s.hosts.cur ≤ s.hosts.last - 1 := by
    by_contra hno
    refine hnewline ?_
    rw [show s.hosts.cur - s.hosts.hostmap - 1 = bytes.length - 1 by omega, hlast]
  unfold Stuck
  rw [hl]
  rintro ⟨start, cur, hskip, hskip', hor⟩
  have hstart := hm.skip_le hge.le hlt (by omega) hget (by decide) hskip
  obtain ⟨start', hfrom, hle', -, -⟩ := hm.skip (p := isblank) hge.le hle
  rw [hskip] at hfrom
  obtain rfl := Option.some.inj hfrom
  have hcur := hm.skip_le (hge.le.trans hle') hstart (by omega) hget (by decide) hskip'
  omega

/-- **No state of a run is stuck**, if the file, the buffer and what a failed call left are as they
should be. -/
theorem prudent_run (hp : Past s.hosts) (hf : Final bytes s.hosts) (hl : s.label = .again)
    (hlast : bytes.getLast? = some newline) (hlong : bytes.length < intMax) (hlen : len ≤ intMax)
    (hroom : 0 ≤ len ∧ len < sizeMin ∨ destStart ≤ len) {s' : St} (hmeets : Meets (step len) s s') :
    ¬Stuck len s' := by
  have hi : Inv bytes len s := by
    unfold Inv
    rw [hl]
    exact hf
  have hbytes : bytes ≠ [] := by
    rintro rfl
    cases hlast
  have hdest : destStart = 128 := rfl
  obtain ⟨hi', hon⟩ := inv_meets hlen hi hmeets
  cases hl' : s'.label with
  | again =>
    unfold Stuck
    rw [hl']
    rintro (hneg | ⟨-, hfailed, hlt⟩)
    · omega
    · exact absurd ((hp.onward hf hbytes hon).1 hfailed) (Nat.not_le.2 hlt)
  | address =>
    unfold Inv at hi'
    rw [hl'] at hi'
    obtain ⟨-, -, -, hmin, -, -⟩ := hi'
    unfold Stuck
    rw [hl']
    dsimp only
    omega
  | names => exact names_inside hi' hl' hlast hlong
  | parseerror | nospace =>
    unfold Stuck
    rw [hl']
    exact id

/-- The start of a call that is prudent. -/
theorem past_enter (hp : Past h) (hs : Sound file c) (hc : Prudent c) {s : St}
    (he : c = .gethostent len s k) : Past (enter file k h).1 := by
  subst he
  obtain ⟨-, base, hplace, hmin⟩ := hc
  unfold enter
  by_cases hnull : h.hostmap ≠ 0
  · rw [if_pos hnull]
    exact hp
  rw [if_neg hnull]
  by_cases hopen : k.opened = true
  · rw [if_neg (show ¬(!k.opened) = true by rw [hopen]; decide), hplace]
    have hroom := (hs.2 base hplace).2
    refine ⟨fun hfailed => ?_, .inr hmin⟩
    have hbase : base = 2 ^ 64 - 1 := hfailed
    omega
  · rw [if_pos (show (!k.opened) = true by simpa using hopen)]
    exact hp

theorem clear_of_prudent (calls : List Call) (hfile : Proper file) (hb : Between file h)
    (hp : Past h) (hs : ∀ c ∈ calls, Sound file c) (hc : ∀ c ∈ calls, Prudent c) :
    Clear file calls h := by
  have hbytes : content file ≠ [] := fun hnil => by
    have hlast := hfile.1
    rw [hnil] at hlast
    cases hlast
  induction calls generalizing h with
  | nil => trivial
  | cons c cs ih =>
    have hs0 := hs c List.mem_cons_self
    have hc0 := hc c List.mem_cons_self
    suffices hone : Unstuck file c h ∧ ∀ h', Ends file c h h' → Past h' from
      ⟨hone.1, fun h' he => ih (he.between hb hs0) (hone.2 h' he)
        (fun c h => hs c (List.mem_cons_of_mem _ h)) fun c h => hc c (List.mem_cons_of_mem _ h)⟩
    cases c with
    | gethostent len s k =>
      have hpast := past_enter hp hs0 hc0 rfl
      obtain ⟨-, hfinal⟩ := enter_spec hb hs0.2
      refine ⟨fun hgo s' hmeets => prudent_run (s := { s with label := .again, hosts := _ }) hpast
        (hfinal hgo) rfl hfile.1 hfile.2 hs0.1 hc0.1 hmeets, fun h' he => ?_⟩
      unfold Ends at he
      dsimp only at he
      split at he
      · rename_i hgo
        obtain ⟨r, hr, rfl⟩ := he
        exact hpast.onward (hfinal hgo) hbytes (final_of_stops
          (s := { s with label := .again, hosts := (enter file k h).1 }) hs0.1 (hfinal hgo) hr).2
      · rw [he]
        exact hpast
    | sethostent =>
      refine ⟨trivial, fun h' he => ?_⟩
      obtain rfl : h' = h.sethostent := he
      refine ⟨fun hfailed => ?_, hp.2⟩
      have hlast : h.last < 2 ^ 64 := Nat.mod_lt _ (by decide)
      have hcur : h.hostmap = 2 ^ 64 - 1 := hfailed
      show h.last ≤ h.hostmap
      omega
    | endhostent =>
      refine ⟨trivial, fun h' he => ?_⟩
      obtain rfl : h' = h.endhostent := he
      exact ⟨fun hfailed => absurd hfailed (show ¬(0 : Nat) = failed by decide), .inl rfl⟩

end

/-- **A sequence of calls survives exactly if none of them meets a state that is stuck.** -/
theorem hosts_survive_iff (file : List UInt8) (calls : List Call)
    (hs : ∀ c ∈ calls, Sound file c) : Survives file calls start ↔ Clear file calls start :=
  calls_survive calls (.inl ⟨rfl, .inl rfl⟩) hs

/-- Variables that are not set yet. -/
def locals : St := ⟨.again, start, 0, 0, 0, fun _ => 0, fun _ => none, 0, 0⟩

/-- `::1 a`, with a buffer that is too small between two that are not. -/
theorem hosts_survive_retry :
    Survives [58, 58, 49, 32, 97, 10]
      [.gethostent 1000 locals ⟨true, some (2 ^ 32)⟩, .sethostent,
        .gethostent 50 locals ⟨true, some (2 ^ 32)⟩, .gethostent 1000 locals ⟨true, some (2 ^ 32)⟩,
        .endhostent, .gethostent 1000 locals ⟨true, some (2 ^ 32)⟩] start := by
  have hplace : ∀ base, (some (2 ^ 32) : Option Nat) = some base →
      0 < base ∧ base + (content [58, 58, 49, 32, 97, 10]).length < 2 ^ 64 - 1 := fun base h => by
    cases h
    decide
  have hsound : ∀ c ∈ ([.gethostent 1000 locals ⟨true, some (2 ^ 32)⟩, .sethostent,
      .gethostent 50 locals ⟨true, some (2 ^ 32)⟩, .gethostent 1000 locals ⟨true, some (2 ^ 32)⟩,
      .endhostent, .gethostent 1000 locals ⟨true, some (2 ^ 32)⟩] : List Call),
      Sound [58, 58, 49, 32, 97, 10] c ∧ Prudent c := fun c hc => by
    simp only [List.mem_cons, List.not_mem_nil, or_false] at hc
    rcases hc with rfl | rfl | rfl | rfl | rfl | rfl
    · exact ⟨⟨by decide, hplace⟩, .inr (by decide), _, rfl, le_rfl⟩
    · exact ⟨trivial, trivial⟩
    · exact ⟨⟨by decide, hplace⟩, .inl (by decide), _, rfl, le_rfl⟩
    · exact ⟨⟨by decide, hplace⟩, .inr (by decide), _, rfl, le_rfl⟩
    · exact ⟨trivial, trivial⟩
    · exact ⟨⟨by decide, hplace⟩, .inr (by decide), _, rfl, le_rfl⟩
  refine (hosts_survive_iff _ _ fun c hc => (hsound c hc).1).2 ?_
  exact clear_of_prudent _ ⟨by decide, by decide⟩ (.inl ⟨rfl, .inl rfl⟩)
    ⟨nofun, .inl rfl⟩ (fun c hc => (hsound c hc).1) fun c hc => (hsound c hc).2

/-- An empty file, which cannot be mapped, and two calls. -/
theorem hosts_crash : ¬ ∀ (file : List UInt8) (calls : List Call),
    (∀ c ∈ calls, Sound file c) → Survives file calls start := by
  intro h
  obtain ⟨h1, he1, -, h2, he2, -⟩ := h [] [.gethostent 1000 locals ⟨true, none⟩,
    .gethostent 1000 locals ⟨true, none⟩] fun c hc => by
      simp only [List.mem_cons, List.not_mem_nil, or_false, or_self] at hc
      rw [hc]
      exact ⟨by decide, nofun⟩
  obtain rfl : h1 = ⟨failed, 0, 0, none⟩ := he1
  obtain ⟨r, hr, -⟩ := he2
  have hfault : step 1000 { locals with label := .again, hosts := ⟨failed, 0, 0, none⟩ } =
      .fault () := rfl
  exact not_stops_fault hfault hr

end Dietlibc.Netdb.Hosts
