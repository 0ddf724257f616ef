import Dietlibc.Base.Circular
import Dietlibc.Loader.Lookup
import Mathlib.Logic.Relation

/-!
# The dependencies of libraries

`_dl_queue_lib`, `_dl_open_dep` and what `_dl_dyn_scan` does with `DT_NEEDED`, in steps: a library that
is opened while the queue is emptied is scanned in its turn, and puts its own names behind those that
wait. The outside says whether a file can be mapped, what it needs, and whether the checks and the
relocation of an object go well. `same` is the comparison that `_dl_find_lib` makes. The notes are no
part of the program: they say what became of the names, each of which is known by its scan and its
place there.
-/

namespace Dietlibc.Loader

open Relation

variable {ν : Type}

def maxQueue : Nat := 64

/-- An entry of `_dl_queue`, and where its name comes from. -/
structure Waiting (ν : Type) where
  name : ν
  flags : Nat
  src : Nat × Nat

/-- What `_dl_find_lib` sees of a handle. The name is missing if `strdup` failed. -/
structure Lib (ν : Type) where
  id : Nat
  name : Option ν
  lnkCount : Nat

/-- A file that can be mapped. -/
structure Object (ν : Type) where
  named : Bool
  needed : List ν

/-- Where a scan is: before the names, at one of them, in `_dl_open_dep`, or behind it. -/
inductive Place where
  | checks
  | needed (i : Nat)
  | drain
  | relocate
  deriving DecidableEq

/-- A `_dl_dyn_scan` that has not returned, and the name for which its object was opened. -/
structure Scanning (ν : Type) where
  id : Nat
  flags : Nat
  needed : List ν
  src : Option (Nat × Nat)
  place : Place

/-- What became of a name, and how a scan of so many names ended. -/
inductive Note where
  | found (src : Nat × Nat)
  | dropped (src : Nat × Nat)
  | opened (src : Nat × Nat)
  | refused (src : Nat × Nat)
  | ended (id n : Nat) (ok : Bool)
  deriving DecidableEq

/-- The queue, the handles in use and the scans, the innermost first. `failing` says that zero is
returned to the innermost scan, or to the program. -/
structure Loading (ν : Type) where
  queue : Circular (Waiting ν)
  libs : List (Lib ν)
  scans : List (Scanning ν)
  failing : Bool
  begun : Nat
  notes : List Note

/-- A step of the program, or of the code: whether what it checks goes well, and the file that it
opens. -/
inductive Event (ν : Type) where
  | other (libs : List (Lib ν))
  | call (name : ν) (flags : Nat) (file : Option (Object ν))
  | go (passes : Bool) (file : Option (Object ν))

namespace Loading

def start (slots : Nat → Waiting ν) : Loading ν := ⟨⟨0, 0, slots⟩, [], [], false, 0, []⟩

/-- The names that wait. -/
def held (s : Loading ν) : List (Waiting ν) := s.queue.contents maxQueue

def note (s : Loading ν) (l : List Note) : Loading ν := { s with notes := l ++ s.notes }

/-- `++(ret->lnk_count)` -/
def addLink (s : Loading ν) (id : Nat) : Loading ν :=
  { s with libs := s.libs.map fun l => if l.id = id then { l with lnkCount := l.lnkCount + 1 } else l }

/-- `_dl_free_handle` -/
def free (s : Loading ν) (id : Nat) : Loading ν := { s with libs := s.libs.filter fun l => l.id ≠ id }

/-- The innermost scan is somewhere else. -/
def goOn (s : Loading ν) (f : Scanning ν) (rest : List (Scanning ν)) (p : Place) : Loading ν :=
  { s with scans := { f with place := p } :: rest }

/-- The innermost scan returns. -/
def leave (s : Loading ν) (f : Scanning ν) (rest : List (Scanning ν)) (ok : Bool) : Loading ν :=
  { s with
    scans := rest
    failing := !ok
    notes := .ended f.id f.needed.length ok ::
      ((if ok then [] else f.src.toList.map .refused) ++ s.notes) }

end Loading

section

variable (same : ν → ν → Bool)

/-- `_dl_find_lib` -/
def dlFindLib (name : ν) (libs : List (Lib ν)) : Option (Lib ν) :=
  libs.find? fun l => l.name.any fun x => same x name

/-- `_dl_queue_lib` -/
def dlQueueLib (name : ν) (flags : Nat) (src : Nat × Nat) (s : Loading ν) : Int × Loading ν :=
  match dlFindLib same name s.libs with
  | some l => (0, (s.addLink l.id).note [.found src])
  | none =>
    match s.queue.push maxQueue ⟨name, flags, src⟩ with
    | none => (-1, s.note [.dropped src])
    | some q => (0, { s with queue := q })

/-- `_dlopen`, up to the scan of the object that it maps. -/
def dlopen (name : ν) (flags : Nat) (file : Option (Object ν)) (src : Option (Nat × Nat))
    (s : Loading ν) : Loading ν :=
  match dlFindLib same name s.libs with
  | some l => s.addLink l.id
  | none =>
    match file with
    | none => { s.note (src.toList.map .refused) with failing := true }
    | some o =>
      { s with
        libs := s.libs ++ [⟨s.begun, if o.named then some name else none, 1⟩]
        scans := ⟨s.begun, flags, o.needed, src, .checks⟩ :: s.scans
        begun := s.begun + 1 }

/-- The innermost scan goes on. The value of `_dl_queue_lib` is not looked at. -/
def advance (passes : Bool) (file : Option (Object ν)) (f : Scanning ν) (rest : List (Scanning ν))
    (s : Loading ν) : Loading ν :=
  match f.place with
  | .checks => if passes then s.goOn f rest (.needed 0) else (s.free f.id).leave f rest false
  | .needed i =>
    match f.needed[i]? with
    | some name => (dlQueueLib same name f.flags (f.id, i) s).2.goOn f rest (.needed (i + 1))
    | none => s.goOn f rest .drain
  | .drain =>
    if s.queue.start = s.queue.stop then s.goOn f rest .relocate
    else
      let e := s.queue.slots s.queue.start
      dlopen same e.name e.flags file (some e.src)
        ({ s with queue := s.queue.pop maxQueue }.note [.opened e.src])
  | .relocate => if passes then s.leave f rest true else (s.free f.id).leave f rest false

/-- A step. A scan to which zero is returned while it empties the queue returns zero. Between the calls
the program may do what changes the handles, such as `dlclose`. -/
def step : Event ν → Loading ν → Option (Loading ν)
  | .other libs, s => if s.scans.isEmpty ∧ ¬s.failing then some { s with libs := libs } else none
  | .call name flags file, s =>
    if s.scans.isEmpty ∧ ¬s.failing then some (dlopen same name flags file none s) else none
  | .go passes file, s =>
    match s.scans with
    | [] => if s.failing then some { s with failing := false } else none
    | f :: rest => some (if s.failing then s.leave f rest false else advance same passes file f rest s)

end

/-! ## What the claim is about -/

/-- A scan that ended well found each of its names loaded or opened it, once. The scan of a name that
found no room or was refused did not end well. No name of a scan that failed waits. -/
structure ScansRight (s : Loading ν) : Prop where
  taken : ∀ id n, .ended id n true ∈ s.notes → ∀ i < n,
    s.notes.count (.found (id, i)) + s.notes.count (.opened (id, i)) = 1
  reported : ∀ id i, .dropped (id, i) ∈ s.notes ∨ .refused (id, i) ∈ s.notes →
    ∀ n, .ended id n true ∉ s.notes
  emptied : ∀ id n, .ended id n false ∈ s.notes → ∀ e ∈ s.held, e.src.1 ≠ id

/-- The name that the innermost scan comes to. -/
def Loading.nextName (s : Loading ν) : Option ν :=
  match s.scans with
  | [] => none
  | f :: _ =>
    match f.place with
    | .needed i => f.needed[i]?
    | _ => none

/-- A name that is not loaded finds room, and a name is refused only if no other waits. -/
def Fits (same : ν → ν → Bool) (s : Loading ν) : Prop :=
  (s.failing = false → ∀ name ∈ s.nextName, dlFindLib same name s.libs = none →
    s.queue.count maxQueue + 1 < maxQueue) ∧
  (s.failing = true → s.scans ≠ [] → s.queue.start = s.queue.stop)

/-! ## What a step keeps -/

namespace Loading

/-- The scans that have not returned. -/
def ids (s : Loading ν) : List Nat := s.scans.map (·.id)

/-- How often a name was found, was opened or waits. -/
def tally (s : Loading ν) (p : Nat × Nat) : Nat :=
  s.notes.count (.found p) + s.notes.count (.opened p) + (s.held.map (·.src)).count p

end Loading

/-- The names behind which a scan is. -/
def Scanning.reached (f : Scanning ν) : Nat :=
  match f.place with
  | .checks => 0
  | .needed i => i
  | _ => f.needed.length

/-- Each scan was begun for a name of one that is still there. -/
def Sourced : List (Scanning ν) → Prop
  | [] => True
  | f :: rest => (∀ p, f.src = some p → p.1 ∈ rest.map (·.id)) ∧ Sourced rest

/-- The names that scans are behind are accounted for, those that wait belong to scans that have not
returned, and so do those that were refused, while zero is returned to them. -/
structure Inv (s : Loading ν) : Prop where
  within : s.queue.Within maxQueue
  kept : ∀ p, .dropped p ∉ s.notes
  nodup : s.ids.Nodup
  old : ∀ id ∈ s.ids, id < s.begun
  scan : ∀ f ∈ s.scans, ∀ i, s.tally (f.id, i) = if i < f.reached then 1 else 0
  bound : ∀ f ∈ s.scans, f.reached ≤ f.needed.length
  new : ∀ id i, s.begun ≤ id → s.tally (id, i) = 0
  owned : ∀ e ∈ s.held, e.src.1 ∈ s.ids
  ended : ∀ id n ok, .ended id n ok ∈ s.notes → id < s.begun ∧ id ∉ s.ids
  taken : ∀ id n, .ended id n true ∈ s.notes → ∀ i < n, s.tally (id, i) = 1
  below : ∀ f ∈ s.scans.tail, f.place = .drain
  emptied : ∀ f ∈ s.scans, f.place = .relocate → s.queue.start = s.queue.stop
  sourced : Sourced s.scans
  refused : ∀ id i, .refused (id, i) ∈ s.notes → (s.failing = true ∧ id ∈ s.ids) ∨
    (id < s.begun ∧ id ∉ s.ids ∧ ∀ n, .ended id n true ∉ s.notes)

section

variable {same : ν → ν → Bool} {s s' : Loading ν} {f : Scanning ν} {rest : List (Scanning ν)}
  {name : ν} {flags i : Nat} {src : Option (Nat × Nat)} {file : Option (Object ν)} {p : Place}

theorem Inv.setLibs (h : Inv s) (l : List (Lib ν)) : Inv { s with libs := l } :=
  ⟨h.within, h.kept, h.nodup, h.old, h.scan, h.bound, h.new, h.owned, h.ended, h.taken, h.below,
    h.emptied, h.sourced, h.refused⟩

theorem Inv.free (h : Inv s) (id : Nat) : Inv (s.free id) := h.setLibs _

theorem Inv.start (slots : Nat → Waiting ν) : Inv (Loading.start slots) where
  within := ⟨Nat.zero_lt_succ 63, Nat.zero_lt_succ 63⟩
  kept _ := List.not_mem_nil
  nodup := List.nodup_nil
  old _ h := absurd h List.not_mem_nil
  scan _ h := absurd h List.not_mem_nil
  bound _ h := absurd h List.not_mem_nil
  new _ _ _ := rfl
  owned _ h := absurd h List.not_mem_nil
  ended _ _ _ h := absurd h List.not_mem_nil
  taken _ _ h := absurd h List.not_mem_nil
  below _ h := absurd h List.not_mem_nil
  emptied _ h := absurd h List.not_mem_nil
  sourced := trivial
  refused _ _ h := absurd h List.not_mem_nil

theorem held_eq_nil_iff (h : s.queue.Within maxQueue) : s.held = [] ↔ s.queue.start = s.queue.stop :=
  Circular.contents_eq_nil_iff h

theorem ids_cons (hs : s.scans = f :: rest) : s.ids = f.id :: rest.map (·.id) := by
  rw [Loading.ids, hs, List.map_cons]

/-- The innermost scan goes on behind as many names. -/
theorem Inv.goOn (h : Inv s) (hs : s.scans = f :: rest)
    (hr : ({ f with place := p } : Scanning ν).reached = f.reached)
    (he : p = .relocate → s.queue.start = s.queue.stop) : Inv (s.goOn f rest p) := by
  have hids : (s.goOn f rest p).ids = s.ids := (ids_cons hs).symm
  have hmem : ∀ g ∈ rest, g ∈ s.scans := fun g hg => hs ▸ List.mem_cons_of_mem _ hg
  have hf : f ∈ s.scans := hs ▸ List.mem_cons_self
  refine ⟨h.within, h.kept, hids ▸ h.nodup, hids ▸ h.old, ?_, ?_, h.new, hids ▸ h.owned,
    hids ▸ h.ended, h.taken, ?_, ?_, ?_, hids ▸ h.refused⟩
  · refine List.forall_mem_cons.mpr ⟨fun i => ?_, fun g hg => h.scan g (hmem g hg)⟩
    rw [hr]
    exact h.scan f hf i
  · exact List.forall_mem_cons.mpr ⟨hr ▸ h.bound f hf, fun g hg => h.bound g (hmem g hg)⟩
  · have hb := h.below
    rwa [hs] at hb
  · exact List.forall_mem_cons.mpr ⟨he, fun g hg => h.emptied g (hmem g hg)⟩
  · have hsrc := h.sourced
    rwa [hs] at hsrc

/-- The innermost scan is behind one more name, which was found or waits now. -/
theorem Inv.take (h : Inv s) (hs : s.scans = f :: rest) (hp : f.place = .needed i)
    (hi : i < f.needed.length) (hfailing : s'.failing = s.failing)
    (hbegun : s'.begun = s.begun) (hwithin : s'.queue.Within maxQueue)
    (htally : ∀ q, s'.tally q = s.tally q + if q = (f.id, i) then 1 else 0)
    (hheld : ∀ e ∈ s'.held, e ∈ s.held ∨ e.src = (f.id, i))
    (hnotes : ∀ n ∈ s'.notes, n ∈ s.notes ∨ n = .found (f.id, i)) :
    Inv (s'.goOn f rest (.needed (i + 1))) := by
  have hids : (s'.goOn f rest (.needed (i + 1))).ids = s.ids := (ids_cons hs).symm
  have hf : f ∈ s.scans := hs ▸ List.mem_cons_self
  have hmem : ∀ g ∈ rest, g ∈ s.scans := fun g hg => hs ▸ List.mem_cons_of_mem _ hg
  have hfid : f.id ∈ s.ids := ids_cons hs ▸ List.mem_cons_self
  have hother (id j : Nat) (hne : id ≠ f.id) : s'.tally (id, j) = s.tally (id, j) := by
    rw [htally, if_neg fun he => hne (Prod.mk.inj he).1, Nat.add_zero]
  have hnote {n : Note} (hn : n ∈ s'.notes) (hne : n ≠ .found (f.id, i)) : n ∈ s.notes :=
    (hnotes n hn).resolve_right hne
  refine ⟨hwithin, fun q hq => h.kept q (hnote hq (fun h => nomatch h)), hids ▸ h.nodup, ?_, ?_, ?_,
    ?_, ?_, ?_, ?_, ?_, ?_, ?_, ?_⟩
  · intro id hid
    exact (h.old id (hids ▸ hid)).trans_eq hbegun.symm
  · refine List.forall_mem_cons.mpr ⟨fun j => ?_, fun g hg j => ?_⟩
    · have hj := h.scan f hf j
      rw [Scanning.reached, hp] at hj
      dsimp only at hj
      change s'.tally (f.id, j) = if j < i + 1 then 1 else 0
      rw [htally, hj]
      by_cases hji : j = i
      · subst hji
        rw [if_neg (Nat.lt_irrefl j), if_pos rfl, if_pos (Nat.lt_succ_self j)]
      · rw [if_neg fun he => hji (Prod.mk.inj he).2, Nat.add_zero]
        exact if_congr (by omega) rfl rfl
    · have hne : g.id ≠ f.id := fun he => by
        have hn := h.nodup
        rw [ids_cons hs, List.nodup_cons] at hn
        exact hn.1 (he ▸ List.mem_map_of_mem hg)
      exact (hother g.id j hne).trans (h.scan g (hmem g hg) j)
  · exact List.forall_mem_cons.mpr ⟨hi, fun g hg => h.bound g (hmem g hg)⟩
  · intro id j hid
    have hid : s.begun ≤ id := hbegun.symm.trans_le hid
    have := h.old f.id hfid
    exact (hother id j (by omega)).trans (h.new id j hid)
  · intro e he
    rw [hids]
    rcases hheld e he with he | he
    · exact h.owned e he
    · rw [he]
      exact hfid
  · intro id n ok hn
    obtain ⟨hlt, hid⟩ := h.ended id n ok (hnote hn (fun h => nomatch h))
    exact ⟨hlt.trans_eq hbegun.symm, hids ▸ hid⟩
  · intro id n hn j hj
    have hn := hnote hn (fun h => nomatch h)
    have hne : id ≠ f.id := fun he => (h.ended id n true hn).2 (he ▸ hfid)
    exact (hother id j hne).trans (h.taken id n hn j hj)
  · have hb := h.below
    rwa [hs] at hb
  · refine List.forall_mem_cons.mpr ⟨(fun hp => nomatch hp), fun g hg hp => ?_⟩
    have hb := h.below
    rw [hs] at hb
    cases (hb g hg).symm.trans hp
  · have hsrc := h.sourced
    rwa [hs] at hsrc
  · intro id j hn
    rcases h.refused id j (hnote hn (fun h => nomatch h)) with ⟨hfail, hid⟩ | ⟨hlt, hid, hno⟩
    · exact .inl ⟨hfailing.trans hfail, hids ▸ hid⟩
    · exact .inr ⟨hlt.trans_eq hbegun.symm, hids ▸ hid, fun n hn =>
        hno n (hnote hn (fun h => nomatch h))⟩

/-- `_dl_queue_lib`, where there is room for the name. -/
theorem Inv.queueLib (h : Inv s) (hs : s.scans = f :: rest) (hp : f.place = .needed i)
    (hi : i < f.needed.length)
    (hroom : dlFindLib same name s.libs = none → s.queue.count maxQueue + 1 < maxQueue) :
    Inv ((dlQueueLib same name flags (f.id, i) s).2.goOn f rest (.needed (i + 1))) := by
  unfold dlQueueLib
  rcases hfind : dlFindLib same name s.libs with _ | l
  · rcases hpush : s.queue.push maxQueue ⟨name, flags, (f.id, i)⟩ with _ | q
    · have := (Circular.push_eq_none_iff h.within).mp hpush
      have := hroom hfind
      omega
    · have hheld : ({ s with queue := q } : Loading ν).held = s.held ++ [⟨name, flags, (f.id, i)⟩] :=
        Circular.contents_push h.within hpush
      change Inv (({ s with queue := q } : Loading ν).goOn f rest (.needed (i + 1)))
      refine h.take hs hp hi rfl rfl
        (Circular.push_within h.within hpush) (fun p => ?_) (fun e he => ?_) fun n hn => .inl hn
      · unfold Loading.tally
        rw [hheld, List.map_append, List.count_append, ← Nat.add_assoc]
        congr 1
        rw [List.map_singleton, List.count_singleton]
        exact if_congr (by rw [beq_iff_eq, eq_comm]) rfl rfl
      · rw [hheld, List.mem_append, List.mem_singleton] at he
        exact he.imp id fun he => by rw [he]
  · change Inv (((s.addLink l.id).note [.found (f.id, i)]).goOn f rest (.needed (i + 1)))
    refine h.take hs hp hi rfl rfl h.within
      (fun p => ?_) (fun e he => .inl he) fun n hn => ?_
    · change (Note.found (f.id, i) :: s.notes).count (.found p) +
        (Note.found (f.id, i) :: s.notes).count (.opened p) + (s.held.map (·.src)).count p = _
      rw [List.count_cons, List.count_cons_of_ne (by simp), Loading.tally]
      have he : (if (Note.found (f.id, i) == .found p) = true then 1 else 0) =
          if p = (f.id, i) then 1 else 0 :=
        if_congr (by rw [beq_iff_eq, Note.found.injEq, eq_comm]) rfl rfl
      omega
    · exact (List.mem_cons.mp hn).symm

/-- A name is taken out of the queue. -/
theorem Inv.pop (h : Inv s) (hdrain : ∀ f ∈ s.scans, f.place = .drain)
    (hne : s.queue.start ≠ s.queue.stop) :
    Inv ({ s with queue := s.queue.pop maxQueue }.note
      [.opened (s.queue.slots s.queue.start).src]) := by
  let e := s.queue.slots s.queue.start
  let t : Loading ν := { s with queue := s.queue.pop maxQueue }.note [.opened e.src]
  have hheld : s.held = e :: t.held := Circular.contents_pop h.within hne
  have htally (p : Nat × Nat) : t.tally p = s.tally p := by
    change (Note.opened e.src :: s.notes).count (.found p) +
      (Note.opened e.src :: s.notes).count (.opened p) + (t.held.map (·.src)).count p = _
    rw [List.count_cons_of_ne (by simp), List.count_cons, Loading.tally, hheld, List.map_cons,
      List.count_cons]
    have he : (if (Note.opened e.src == .opened p) = true then 1 else 0) =
        if (e.src == p) = true then 1 else 0 :=
      if_congr (by rw [beq_iff_eq, beq_iff_eq, Note.opened.injEq]) rfl rfl
    omega
  have hnote {n : Note} (hn : n ∈ t.notes) (hne : n ≠ .opened e.src) : n ∈ s.notes :=
    (List.mem_cons.mp hn).resolve_left hne
  refine ⟨Circular.pop_within h.within, fun p hp => h.kept p (hnote hp (fun h => nomatch h)), h.nodup,
    h.old, fun f hf i => (htally _).trans (h.scan f hf i), h.bound,
    fun id i hid => (htally _).trans (h.new id i hid), fun x hx => ?_, fun id n ok hn => ?_,
    fun id n hn i hi => ?_, h.below, fun f hf hp => ?_, h.sourced, fun id i hn => ?_⟩
  · exact h.owned x (hheld ▸ List.mem_cons_of_mem _ hx)
  · exact h.ended id n ok (hnote hn (fun h => nomatch h))
  · exact (htally _).trans (h.taken id n (hnote hn (fun h => nomatch h)) i hi)
  · cases (hdrain f hf).symm.trans hp
  · rcases h.refused id i (hnote hn (fun h => nomatch h)) with hl | ⟨hlt, hid, hno⟩
    · exact .inl hl
    · exact .inr ⟨hlt, hid, fun n hn => hno n (hnote hn (fun h => nomatch h))⟩

/-- What is refused, is refused to a scan that has not returned, and zero is returned to it. -/
theorem Inv.refuse (h : Inv s) (hsrc : ∀ p, src = some p → p.1 ∈ s.ids) :
    Inv { s.note (src.toList.map .refused) with failing := true } := by
  have hnote {n : Note} (hn : n ∈ src.toList.map .refused ++ s.notes) (hne : ∀ p, n ≠ .refused p) :
      n ∈ s.notes := by
    refine (List.mem_append.mp hn).resolve_left fun h => ?_
    obtain ⟨p, -, rfl⟩ := List.mem_map.mp h
    exact hne p rfl
  have hcount {n : Note} (hne : ∀ p, n ≠ .refused p) :
      (src.toList.map Note.refused ++ s.notes).count n = s.notes.count n := by
    rw [List.count_append, List.count_eq_zero_of_not_mem, Nat.zero_add]
    intro h
    obtain ⟨p, -, rfl⟩ := List.mem_map.mp h
    exact hne p rfl
  let t : Loading ν := { s.note (src.toList.map .refused) with failing := true }
  have htally (p : Nat × Nat) : t.tally p = s.tally p := by
    unfold Loading.tally
    have hf := hcount (n := .found p) fun _ h => nomatch h
    have ho := hcount (n := .opened p) fun _ h => nomatch h
    exact congrArg (· + (s.held.map (·.src)).count p) (congrArg₂ (· + ·) hf ho)
  refine ⟨h.within, fun p hp => h.kept p (hnote hp (fun _ h => nomatch h)), h.nodup, h.old,
    fun f hf i => (htally _).trans (h.scan f hf i), h.bound,
    fun id i hid => (htally _).trans (h.new id i hid), h.owned,
    fun id n ok hn => h.ended id n ok (hnote hn (fun _ h => nomatch h)), fun id n hn i hi => ?_,
    h.below,
    h.emptied, h.sourced, fun id i hn => ?_⟩
  · exact (htally _).trans (h.taken id n (hnote hn (fun _ h => nomatch h)) i hi)
  · rcases List.mem_append.mp hn with hn | hn
    · obtain ⟨p, hp, he⟩ := List.mem_map.mp hn
      cases he
      exact .inl ⟨rfl, hsrc _ (Option.mem_toList.mp hp)⟩
    · rcases h.refused id i hn with ⟨-, hid⟩ | ⟨hlt, hid, hno⟩
      · exact .inl ⟨rfl, hid⟩
      · exact .inr ⟨hlt, hid, fun n hn => hno n (hnote hn (fun _ h => nomatch h))⟩

/-- A scan begins. -/
theorem Inv.begin (h : Inv s) (hdrain : ∀ f ∈ s.scans, f.place = .drain) (hfail : s.failing = false)
    (hsrc : ∀ p, src = some p → p.1 ∈ s.ids) (needed : List ν) (libs : List (Lib ν)) :
    Inv { s with
      libs := libs
      scans := ⟨s.begun, flags, needed, src, .checks⟩ :: s.scans
      begun := s.begun + 1 } := by
  refine ⟨h.within, h.kept, List.nodup_cons.mpr ⟨fun hm => Nat.lt_irrefl _ (h.old _ hm), h.nodup⟩,
    List.forall_mem_cons.mpr ⟨Nat.lt_succ_self _, fun id hid => Nat.lt_succ_of_lt (h.old id hid)⟩,
    List.forall_mem_cons.mpr ⟨fun i => ?_, h.scan⟩,
    List.forall_mem_cons.mpr ⟨Nat.zero_le _, h.bound⟩,
    fun id i hid => h.new id i (Nat.le_of_succ_le hid),
    fun e he => List.mem_cons_of_mem _ (h.owned e he), fun id n ok hn => ?_, h.taken, hdrain,
    List.forall_mem_cons.mpr ⟨(fun hp => nomatch hp), fun f hf hp => ?_⟩, ⟨hsrc, h.sourced⟩,
    fun id i hn => ?_⟩
  · exact (h.new _ i (Nat.le_refl _)).trans (if_neg (Nat.not_lt_zero i)).symm
  · obtain ⟨hlt, hid⟩ := h.ended id n ok hn
    exact ⟨Nat.lt_succ_of_lt hlt, List.not_mem_cons_of_ne_of_not_mem hlt.ne hid⟩
  · cases (hdrain f hf).symm.trans hp
  · rcases h.refused id i hn with ⟨hf, -⟩ | ⟨hlt, hid, hno⟩
    · cases hf.symm.trans hfail
    · exact .inr ⟨Nat.lt_succ_of_lt hlt, List.not_mem_cons_of_ne_of_not_mem hlt.ne hid, hno⟩

/-- `_dlopen`, for the program or for a scan that empties the queue. -/
theorem Inv.dlopen (h : Inv s) (hdrain : ∀ f ∈ s.scans, f.place = .drain) (hfail : s.failing = false)
    (hsrc : ∀ p, src = some p → p.1 ∈ s.ids) : Inv (dlopen same name flags file src s) := by
  unfold Loader.dlopen
  split
  · exact h.setLibs _
  · split
    · exact h.refuse hsrc
    · exact h.begin hdrain hfail hsrc _ _

/-! ## Where a scan returns -/

theorem sourced_head (h : Inv s) (hs : s.scans = f :: rest) :
    (∀ p, f.src = some p → p.1 ∈ rest.map (·.id)) ∧ Sourced rest := by
  have hsrc := h.sourced
  rwa [hs] at hsrc

/-- The notes of a scan that returns are about no name that is counted. -/
theorem tally_leave (ok : Bool) (p : Nat × Nat) : (s.leave f rest ok).tally p = s.tally p := by
  have hcount {n : Note} (hne : ∀ p, n ≠ .refused p) (he : ∀ id n' ok, n ≠ .ended id n' ok) :
      (s.leave f rest ok).notes.count n = s.notes.count n := by
    unfold Loading.leave
    dsimp only
    rw [List.count_cons_of_ne fun h => he _ _ _ h.symm, List.count_append, List.count_eq_zero_of_not_mem,
      Nat.zero_add]
    split
    · exact List.not_mem_nil
    · intro h
      obtain ⟨p, -, rfl⟩ := List.mem_map.mp h
      exact hne p rfl
  have hf := hcount (n := .found p) (fun _ h => nomatch h) fun _ _ _ h => nomatch h
  have ho := hcount (n := .opened p) (fun _ h => nomatch h) fun _ _ _ h => nomatch h
  exact congrArg (· + (s.held.map (·.src)).count p) (congrArg₂ (· + ·) hf ho)

/-- A note of a scan that returns is old, or says that it ended, or that its name was refused. -/
theorem mem_leave {ok : Bool} {n : Note} (hn : n ∈ (s.leave f rest ok).notes) :
    n ∈ s.notes ∨ n = .ended f.id f.needed.length ok ∨
      (ok = false ∧ ∃ p, f.src = some p ∧ n = .refused p) := by
  rcases List.mem_cons.mp hn with rfl | hn
  · exact .inr (.inl rfl)
  · rcases List.mem_append.mp hn with hn | hn
    · split at hn
      · cases hn
      · obtain ⟨p, hp, rfl⟩ := List.mem_map.mp hn
        exact .inr (.inr ⟨by simpa using ‹¬ok = true›, p, Option.mem_toList.mp hp, rfl⟩)
    · exact .inl hn

/-- The innermost scan returns, when none of its names waits, and does not fail if it is behind all of
its names. -/
theorem Inv.leave (h : Inv s) (hs : s.scans = f :: rest) {ok : Bool}
    (hfree : ∀ e ∈ s.held, e.src.1 ≠ f.id)
    (hok : ok = true → f.reached = f.needed.length ∧ s.failing = false) :
    Inv (s.leave f rest ok) := by
  obtain ⟨hsrc, hsourced⟩ := sourced_head h hs
  have hids := ids_cons hs
  have hf : f ∈ s.scans := hs ▸ List.mem_cons_self
  have hmem : ∀ g ∈ rest, g ∈ s.scans := fun g hg => hs ▸ List.mem_cons_of_mem _ hg
  have hsub : ∀ id ∈ rest.map (·.id), id ∈ s.ids := fun id hid => hids ▸ List.mem_cons_of_mem _ hid
  have hnodup := h.nodup
  rw [hids, List.nodup_cons] at hnodup
  have hfid : f.id ∈ s.ids := hids ▸ List.mem_cons_self
  have hrest : ∀ g ∈ rest, g.place = .drain := by
    have hb := h.below
    rwa [hs] at hb
  refine ⟨h.within, fun p hp => ?_, hnodup.2, fun id hid => h.old id (hsub id hid),
    fun g hg i => (tally_leave ok _).trans (h.scan g (hmem g hg) i), fun g hg => h.bound g (hmem g hg),
    fun id i hid => (tally_leave ok _).trans (h.new id i hid), fun e he => ?_, fun id n ok' hn => ?_,
    fun id n hn i hi => (tally_leave ok _).trans ?_, fun g hg => hrest g (List.mem_of_mem_tail hg),
    fun g hg hp => ?_, hsourced, fun id i hn => ?_⟩
  · rcases mem_leave hp with hp | hp | ⟨-, _, -, hp⟩
    · exact h.kept p hp
    · cases hp
    · cases hp
  · have hid := h.owned e he
    rw [hids] at hid
    exact (List.mem_cons.mp hid).resolve_left (hfree e he)
  · rcases mem_leave hn with hn | hn | ⟨-, _, -, hn⟩
    · exact ⟨(h.ended id n ok' hn).1, fun hid => (h.ended id n ok' hn).2 (hsub id hid)⟩
    · cases hn
      exact ⟨h.old _ hfid, hnodup.1⟩
    · cases hn
  · rcases mem_leave hn with hn | hn | ⟨-, _, -, hn⟩
    · exact h.taken id n hn i hi
    · cases hn
      rw [h.scan f hf i, (hok rfl).1, if_pos hi]
    · cases hn
  · cases (hrest g hg).symm.trans hp
  · have hnot : ∀ n, .ended id n true ∈ (s.leave f rest ok).notes → .ended id n true ∈ s.notes ∨
        (id = f.id ∧ ok = true) := by
      intro n hn
      rcases mem_leave hn with hn | hn | ⟨-, _, -, hn⟩
      · exact .inl hn
      · cases hn
        exact .inr ⟨rfl, rfl⟩
      · cases hn
    rcases mem_leave hn with hn | hn | ⟨rfl, p, hp, hn⟩
    · rcases h.refused id i hn with ⟨hfail, hid⟩ | ⟨hlt, hid, hno⟩
      · have hok' : ok = false := by
          rcases ok with _ | _
          · rfl
          · exact absurd ((hok rfl).2.symm.trans hfail) (by decide)
        subst hok'
        rw [hids] at hid
        rcases List.mem_cons.mp hid with rfl | hid
        · exact .inr ⟨h.old _ hfid, hnodup.1, fun n hn => (hnot n hn).elim
            (fun hn => (h.ended _ n true hn).2 hfid) fun he => nomatch he.2⟩
        · exact .inl ⟨rfl, hid⟩
      · refine .inr ⟨hlt, fun hm => hid (hsub id hm), fun n hn => ?_⟩
        rcases hnot n hn with hn | ⟨rfl, -⟩
        · exact hno n hn
        · exact hid hfid
    · cases hn
    · cases hn
      exact .inl ⟨rfl, hsrc _ hp⟩

theorem Inv.leave_checks (h : Inv s) (hs : s.scans = f :: rest) (hp : f.place = .checks) :
    Inv (s.leave f rest false) := by
  refine h.leave hs (fun e he heq => ?_) fun h => nomatch h
  -- no name of the scan was looked at
  have ht := h.scan f (hs ▸ List.mem_cons_self) e.src.2
  rw [Scanning.reached, hp] at ht
  have hpos : 0 < (s.held.map (·.src)).count (f.id, e.src.2) :=
    List.count_pos_iff.mpr (List.mem_map.mpr ⟨e, he, Prod.ext heq rfl⟩)
  have hle : (s.held.map (·.src)).count (f.id, e.src.2) ≤ s.tally (f.id, e.src.2) := Nat.le_add_left _ _
  simp only [Nat.not_lt_zero, if_false] at ht
  omega

theorem Inv.leave_empty (h : Inv s) (hs : s.scans = f :: rest) (he : s.queue.start = s.queue.stop)
    {ok : Bool} (hok : ok = true → f.reached = f.needed.length ∧ s.failing = false) :
    Inv (s.leave f rest ok) := by
  refine h.leave hs (fun e hheld => ?_) hok
  rw [(held_eq_nil_iff h.within).mpr he] at hheld
  cases hheld

/-- The innermost scan goes on. -/
theorem Inv.advance (h : Inv s) (hs : s.scans = f :: rest) (hfail : s.failing = false)
    (hfit : Fits same s) (passes : Bool) (file : Option (Object ν)) :
    Inv (advance same passes file f rest s) := by
  have hf : f ∈ s.scans := hs ▸ List.mem_cons_self
  unfold Loader.advance
  split
  · rename_i hp
    have hr : f.reached = 0 := by rw [Scanning.reached, hp]
    split
    · exact h.goOn hs hr.symm fun h => nomatch h
    · exact (h.free f.id).leave_checks hs hp
  · rename_i i hp
    have hr : f.reached = i := by rw [Scanning.reached, hp]
    split
    · rename_i name hname
      have hnext : s.nextName = some name := by
        rw [Loading.nextName, hs]
        dsimp only
        rw [hp]
        exact hname
      exact h.queueLib hs hp (List.getElem?_eq_some_iff.mp hname).1
        (hfit.1 hfail name (Option.mem_def.mpr hnext))
    · rename_i hname
      refine h.goOn hs ?_ fun h => nomatch h
      have := List.getElem?_eq_none_iff.mp hname
      have := h.bound f hf
      change f.needed.length = f.reached
      omega
  · rename_i hp
    have hr : f.reached = f.needed.length := by rw [Scanning.reached, hp]
    split
    · exact h.goOn hs hr.symm fun _ => ‹_›
    · rename_i hne
      have hdrain : ∀ g ∈ s.scans, g.place = .drain := by
        have hb := h.below
        rw [hs] at hb ⊢
        exact List.forall_mem_cons.mpr ⟨hp, hb⟩
      refine (h.pop hdrain hne).dlopen hdrain hfail ?_
      rintro p ⟨⟩
      exact h.owned _ (by rw [Loading.held, Circular.contents_pop h.within hne]; exact List.mem_cons_self)
  · rename_i hp
    have hr : f.reached = f.needed.length := by rw [Scanning.reached, hp]
    have he := h.emptied f hf hp
    split
    · exact h.leave_empty hs he fun _ => ⟨hr, hfail⟩
    · exact (h.free f.id).leave_empty hs he fun h : false = true => nomatch h

/-- Zero is returned to the program. -/
theorem Inv.idle (h : Inv s) (hs : s.scans = []) : Inv { s with failing := false } := by
  refine ⟨h.within, h.kept, h.nodup, h.old, h.scan, h.bound, h.new, h.owned, h.ended, h.taken, h.below,
    h.emptied, h.sourced, fun id i hn => ?_⟩
  rcases h.refused id i hn with ⟨-, hid⟩ | hold
  · rw [Loading.ids, hs] at hid
    cases hid
  · exact .inr hold

theorem step_go_nil (hs : s.scans = []) (passes : Bool) (file : Option (Object ν)) :
    step same (.go passes file) s = if s.failing then some { s with failing := false } else none := by
  rw [step, hs]

theorem step_go_cons (hs : s.scans = f :: rest) (passes : Bool) (file : Option (Object ν)) :
    step same (.go passes file) s =
      some (if s.failing then s.leave f rest false else advance same passes file f rest s) := by
  rw [step, hs]

/-- A step keeps the account. -/
theorem Inv.step (h : Inv s) (hfit : Fits same s) {e : Event ν} (he : step same e s = some s') :
    Inv s' := by
  cases e with
  | other libs =>
    rw [Loader.step] at he
    split at he
    · cases he
      exact h.setLibs libs
    · cases he
  | call name flags file =>
    rw [Loader.step] at he
    split at he
    · rename_i hidle
      cases he
      have hnil := List.isEmpty_iff.mp hidle.1
      refine h.dlopen (fun f hf => ?_) (by simpa using hidle.2) fun p hp => nomatch hp
      rw [hnil] at hf
      cases hf
    · cases he
  | go passes file =>
    rcases hs : s.scans with _ | ⟨f, rest⟩
    · rw [step_go_nil hs] at he
      split at he
      · cases he
        exact h.idle hs
      · cases he
    · rw [step_go_cons hs] at he
      cases he
      split
      · rename_i hfail
        have hempty := hfit.2 hfail (hs ▸ List.cons_ne_nil _ _)
        exact h.leave_empty hs hempty fun h : false = true => nomatch h
      · rename_i hfail
        exact h.advance hs (by simpa using hfail) hfit passes file

theorem Inv.right (h : Inv s) : ScansRight s where
  taken id n hn i hi := by
    have ht := h.taken id n hn i hi
    have h0 : (s.held.map (·.src)).count (id, i) = 0 := by
      refine List.count_eq_zero_of_not_mem fun hm => ?_
      obtain ⟨e, he, hsrc⟩ := List.mem_map.mp hm
      have howned := h.owned e he
      rw [hsrc] at howned
      exact (h.ended id n true hn).2 howned
    rw [Loading.tally, h0] at ht
    exact ht
  reported id i hor n hn := by
    rcases hor with hd | hr
    · exact h.kept _ hd
    · rcases h.refused id i hr with ⟨-, hid⟩ | ⟨-, -, hno⟩
      · exact (h.ended id n true hn).2 hid
      · exact hno n hn
  emptied id n hn e he heq := (h.ended id n false hn).2 (heq ▸ h.owned e he)

/-- A step that finds room for a name that is not loaded, and returns zero for a name only if no other
waits. -/
def Follows (same : ν → ν → Bool) (s s' : Loading ν) : Prop :=
  Fits same s ∧ ∃ e, step same e s = some s'

/-- **No dependency is dropped** in a run in which every name finds room in the queue, and no name is
refused while others wait. -/
theorem scans_right {slots : Nat → Waiting ν}
    (h : ReflTransGen (Follows same) (Loading.start slots) s) : ScansRight s := by
  refine Inv.right ?_
  induction h with
  | refl => exact Inv.start slots
  | tail _ hstep ih =>
    obtain ⟨hfit, e, he⟩ := hstep
    exact ih.step hfit he

end

/-! ## Two runs -/

instance (same : ν → ν → Bool) (s : Loading ν) : Decidable (Fits same s) :=
  inferInstanceAs (Decidable ((s.failing = false → ∀ name ∈ s.nextName,
    dlFindLib same name s.libs = none → s.queue.count maxQueue + 1 < maxQueue) ∧
    (s.failing = true → s.scans ≠ [] → s.queue.start = s.queue.stop)))

/-- Events one after the other, as long as the states are such that `P` holds. -/
def events (same : ν → ν → Bool) (P : Loading ν → Prop) [DecidablePred P] (l : List (Event ν))
    (s : Loading ν) : Option (Loading ν) :=
  l.foldlM (fun s e => if P s then step same e s else none) s

theorem reaches_of_events {same : ν → ν → Bool} {P : Loading ν → Prop} [DecidablePred P]
    {l : List (Event ν)} {s s' : Loading ν} (h : events same P l s = some s') :
    ReflTransGen (fun s s' => P s ∧ ∃ e, step same e s = some s') s s' := by
  induction l generalizing s with
  | nil =>
    cases h
    exact .refl
  | cons e l ih =>
    obtain ⟨t, ht, hrest⟩ := Option.bind_eq_some_iff.mp h
    dsimp only at ht
    split at ht
    · exact .head ⟨‹_›, e, ht⟩ (ih hrest)
    · cases ht

/-- The comparison of two names as `_dl_find_lib` makes it. -/
def sameName (signed : Bool) (x y : List UInt8) : Bool :=
  decide (dlLibStrcmp signed (x ++ [0]) (y ++ [0]) = some 0)

/-- The library `a` needs `b`, which needs nothing. -/
def eventsB : List (Event (List UInt8)) :=
  [.call [97] 0 (some ⟨true, [[98]]⟩), .go true none, .go true none, .go true none,
    .go true (some ⟨true, []⟩), .go true none, .go true none, .go true none, .go true none,
    .go true none, .go true none]

theorem scans_right_b : ∃ s : Loading (List UInt8),
    ReflTransGen (Follows (sameName true)) (Loading.start fun _ => ⟨[], 0, (0, 0)⟩) s ∧
      s.notes = [.ended 0 1 true, .ended 1 0 true, .opened (0, 0)] ∧ ScansRight s := by
  have hrun : (events (sameName true) (Fits (sameName true)) eventsB
      (Loading.start fun _ => ⟨[], 0, (0, 0)⟩)).map (·.notes) =
      some [.ended 0 1 true, .ended 1 0 true, .opened (0, 0)] := by decide
  obtain ⟨s, hs, hnotes⟩ := Option.map_eq_some_iff.mp hrun
  have hreach := reaches_of_events hs
  exact ⟨s, hreach, hnotes, scans_right hreach⟩

/-- The library `a` needs `b` and `c`, and there is no `b`. -/
def eventsC : List (Event (List UInt8)) :=
  [.call [97] 0 (some ⟨true, [[98], [99]]⟩), .go true none, .go true none, .go true none,
    .go true none, .go true none, .go true none]

/-- The scan of `a` fails, and `c` waits. -/
theorem scans_leave_name : ¬∀ (signed : Bool) (slots : Nat → Waiting (List UInt8))
    (s : Loading (List UInt8)), ReflTransGen (fun s s' => ∃ e, step (sameName signed) e s = some s')
      (Loading.start slots) s → ScansRight s := by
  intro hall
  have hrun : (events (sameName true) (fun _ => True) eventsC
      (Loading.start fun _ => ⟨[], 0, (0, 0)⟩)).map (fun s => (s.notes, s.held.map (·.src))) =
      some ([.ended 0 2 false, .refused (0, 0), .opened (0, 0)], [(0, 1)]) := by decide
  obtain ⟨s, hs, he⟩ := Option.map_eq_some_iff.mp hrun
  obtain ⟨hnotes, hheld⟩ := Prod.mk.inj he
  have hreach : ReflTransGen (fun s s' => ∃ e, step (sameName true) e s = some s')
      (Loading.start fun _ => ⟨[], 0, (0, 0)⟩) s :=
    ReflTransGen.mono (fun _ _ h => h.2) _ _ (reaches_of_events hs)
  have hmem : (0, 1) ∈ s.held.map (·.src) := hheld ▸ List.mem_cons_self
  obtain ⟨e, hmem, hsrc⟩ := List.mem_map.mp hmem
  exact (hall true _ s hreach).emptied 0 2 (hnotes ▸ List.mem_cons_self) e hmem (congrArg Prod.fst hsrc)

end Dietlibc.Loader
