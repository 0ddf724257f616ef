import Dietlibc.Scanf.Integers
import Dietlibc.Base.Item

/-!
# Scansets

A set between brackets as it is written: bytes and ranges, with a `-` in front or at the end
(`SetText`, `Scanset`). The code takes the first byte apart, holds one byte back while it reads, and
indexes its table by bytes held back; `SetText.reads` is the set it ends with, `SetText.members` the
set that is meant.
-/

namespace Dietlibc

/-- What the code fills for a range. -/
def Item.span : Item → List UInt8
  | .one _ => []
  | .range x y => Scanf.csetRange x y

namespace Scanf

open Shell (dash rbracket lbracket)

/-! ## Sets as they are written -/

/-- The text of a set: whether `^`, whether `-` is in front, what is between, whether `-` is the last. -/
structure SetText where
  negated : Bool
  lead : Bool
  items : List Item
  trail : Bool

namespace SetText

def body (S : SetText) : List UInt8 :=
  (if S.lead then [dash] else []) ++ (S.items.flatMap Item.text ++ if S.trail then [dash] else [])

/-- Behind `%[`. -/
def text (S : SetText) : List UInt8 :=
  (if S.negated then [caret] else []) ++ (S.body ++ [rbracket])

/-- The bytes that are written. -/
def members (S : SetText) (b : UInt8) : Bool :=
  (S.lead || S.trail) && b = dash || S.items.any (Item.denotes b)

/-- The set that is meant, of bytes that are not 0. -/
def denotes (S : SetText) (b : UInt8) : Bool := (S.members b ^^ S.negated) && !decide (b = 0)

/-- Items and a `-` behind a byte that was taken apart: the `-` alone is no last one. -/
def apart (items : List Item) (trail : Bool) : List Item × Bool :=
  if items = [] ∧ trail = true then ([.one dash], false) else (items, trail)

/-- How the code takes a set: a `-` or `]` in front, the items behind it, and whether `-` is the last. -/
def split (S : SetText) : List UInt8 × List Item × Bool :=
  match S.lead, S.items with
  | true, items => ([dash], apart items S.trail)
  | false, [] => ([dash], [], false)
  | false, .one x :: items =>
    if x = rbracket then ([rbracket], apart items S.trail) else ([], .one x :: items, S.trail)
  | false, .range x y :: items =>
    if x = rbracket then ([rbracket], .one dash :: .one y :: items, S.trail)
    else ([], .range x y :: items, S.trail)

/-- The bytes by which the table is indexed one by one: the last one of every item, but for one in
front of a `-` at the end. -/
def alone (S : SetText) : List UInt8 :=
  if S.split.2.2 then (S.split.2.1.map Item.last).dropLast else S.split.2.1.map Item.last

/-- The set that the code reads. -/
def reads (S : SetText) (b : UInt8) : Bool :=
  b ∈ S.split.1 || S.split.2.2 && b = dash || S.split.2.1.any (fun i => b ∈ i.span) || b ∈ S.alone

end SetText

/-- A well-formed set: `]` only as the first byte, `-` only in front, at the end and in ranges. -/
structure Scanset extends SetText where
  nonempty : toSetText.body ≠ []
  caret : negated = false → toSetText.body.head? ≠ some caret
  bracket : rbracket ∉ toSetText.body.tail
  member : ∀ i ∈ items, ∀ c ∈ [i.first, i.last], c ≠ 0 ∧ c ≠ dash

/-! ## The loop -/

/-- A byte held back, the items behind it and the `-` at the end: what the loop collects. -/
def collect : UInt8 → List Item → Bool → List UInt8 → List UInt8
  | p, [], trail, set => (if trail then dash else p) :: set
  | p, i :: items, trail, set => collect i.last items trail (i.span ++ p :: set)

/-- The bytes that are set one by one. -/
def singles (p : UInt8) (items : List Item) (trail : Bool) : List UInt8 :=
  if trail then (p :: items.map Item.last).dropLast else p :: items.map Item.last

theorem singles_cons (p : UInt8) (i : Item) (items : List Item) (trail : Bool) :
    singles p (i :: items) trail = p :: singles i.last items trail := by
  cases trail
  · rfl
  · rfl

theorem mem_collect {p b : UInt8} {items : List Item} {trail : Bool} {set : List UInt8} :
    b ∈ collect p items trail set ↔ b ∈ set ∨ (trail = true ∧ b = dash) ∨
      (∃ i ∈ items, b ∈ i.span) ∨ b ∈ singles p items trail := by
  induction items generalizing p set with
  | nil =>
    rw [collect, List.mem_cons]
    cases trail
    · simp [singles]; tauto
    · simp [singles]; tauto
  | cons i items ih =>
    have hspan : (∃ j ∈ i :: items, b ∈ j.span) ↔ b ∈ i.span ∨ ∃ j ∈ items, b ∈ j.span :=
      List.exists_mem_cons_iff _ _ _
    rw [collect, ih, singles_cons, List.mem_cons, List.mem_append, List.mem_cons, hspan]
    simp only [or_assoc, or_left_comm, or_comm]

section

variable {p : UInt8} {i : Item} {items : List Item} {trail : Bool} {set t rest : List UInt8}

/-- The rest of an item, of which the first byte is held back. -/
theorem setLoop_rest (h : i.last ≠ rbracket ∨ ∃ x, i = .one x) :
    setLoop (i.text.tail ++ t) i.first false set = setLoop t i.last false (i.span ++ set) := by
  cases i with
  | one x => rfl
  | range x y =>
    have hy : y ≠ rbracket := h.resolve_right fun ⟨_, h⟩ => by cases h
    show setLoop (dash :: y :: t) x false set = _
    rw [setLoop, if_neg (by decide), if_neg Bool.false_ne_true, if_pos rfl, setLoop, if_neg hy,
      if_pos rfl]
    rfl

theorem setLoop_item (hf : i.first ≠ rbracket ∧ i.first ≠ dash)
    (hl : i.last ≠ rbracket ∨ ∃ x, i = .one x) : setLoop (i.text ++ t) p false set =
      if p < 128 then setLoop t i.last false (i.span ++ p :: set) else .error .fault := by
  have htext : i.text ++ t = i.first :: (i.text.tail ++ t) := by cases i <;> rfl
  rw [htext, setLoop, if_neg hf.1, if_neg Bool.false_ne_true, if_neg hf.2, cset]
  split
  · rename_i h
    split at h
    · cases h
    · rename_i hp
      rw [if_neg hp]
      cases h
      rfl
  · rename_i h
    split at h
    · rename_i hp
      cases h
      rw [if_pos hp]
      exact setLoop_rest hl
    · cases h

theorem all_below {l : List UInt8} : (l.all fun c => decide (c < 128)) = true ↔ ∀ c ∈ l, c < 128 := by
  rw [List.all_eq_true]
  exact forall₂_congr fun c _ => decide_eq_true_iff

/-- The loop over items up to the bracket. -/
theorem setLoop_items (hf : ∀ i ∈ items, i.first ≠ rbracket ∧ i.first ≠ dash)
    (hl : ∀ i ∈ items, i.last ≠ rbracket) :
    setLoop (items.flatMap Item.text ++ ((if trail then [dash] else []) ++ rbracket :: rest)) p false
        set =
      if (singles p items trail).all fun c => decide (c < 128) then
        .ok (collect p items trail set, rest)
      else .error .fault := by
  induction items generalizing p set with
  | nil =>
    cases trail
    · show setLoop (rbracket :: rest) p false set = _
      rw [setLoop, if_pos rfl, if_neg Bool.false_ne_true, cset]
      by_cases hp : p < 128
      · rw [if_pos hp, if_pos (all_below.2 fun c hc => by rwa [List.mem_singleton.1 hc])]
        rfl
      · have hout : ¬∀ c ∈ singles p [] false, c < 128 := fun h => hp (h p List.mem_cons_self)
        rw [if_neg hp, if_neg (mt all_below.1 hout)]
    · show setLoop (dash :: rbracket :: rest) p false set = _
      rw [setLoop, if_neg (by decide), if_neg Bool.false_ne_true, if_pos rfl, setLoop, if_pos rfl,
        if_pos rfl, if_pos (all_below.2 fun c hc => by cases hc)]
      rfl
  | cons i items ih =>
    rw [List.flatMap_cons, List.append_assoc,
      setLoop_item (hf i List.mem_cons_self) (.inl (hl i List.mem_cons_self)), singles_cons,
      ih (fun j hj => hf j (List.mem_cons_of_mem i hj)) fun j hj => hl j (List.mem_cons_of_mem i hj)]
    have hiff : (∀ c ∈ p :: singles i.last items trail, c < 128) ↔
        p < 128 ∧ ∀ c ∈ singles i.last items trail, c < 128 := List.forall_mem_cons
    by_cases hp : p < 128
    · rw [if_pos hp]
      by_cases hall : ∀ c ∈ singles i.last items trail, c < 128
      · rw [if_pos (all_below.2 hall), if_pos (all_below.2 (hiff.2 ⟨hp, hall⟩))]
        rfl
      · rw [if_neg (mt all_below.1 hall), if_neg fun h => hall (hiff.1 (all_below.1 h)).2]
    · rw [if_neg hp, if_neg fun h => hp (hiff.1 (all_below.1 h)).1]

end

/-! ## A well-formed set -/

/-- A set is taken as a byte in front, items, and whether `-` is the last. -/
structure Taken (S : SetText) (front : List UInt8) (items : List Item) (trail : Bool) : Prop where
  body : S.body = front ++ (items.flatMap Item.text ++ if trail then [dash] else [])
  front : (∃ c, front = [c] ∧ (c = dash ∨ c = rbracket)) ∨
    front = [] ∧ ∃ i js, items = i :: js ∧ i.first ≠ dash ∧ i.first ≠ rbracket
  first : ∀ i ∈ items.tail, i.first ≠ rbracket ∧ i.first ≠ dash
  last : ∀ i ∈ items, i.last ≠ rbracket
  closed : items = [] → trail = false

/-- Items behind the first byte. -/
def Clear (items : List Item) : Prop :=
  ∀ i ∈ items, (i.first ≠ rbracket ∧ i.first ≠ dash) ∧ i.last ≠ rbracket

theorem taken_apart {S : SetText} {c : UInt8} (hc : c = dash ∨ c = rbracket) {items : List Item}
    {trail : Bool} (hclear : Clear items)
    (hbody : S.body = c :: (items.flatMap Item.text ++ if trail then [dash] else [])) :
    Taken S [c] (SetText.apart items trail).1 (SetText.apart items trail).2 := by
  unfold SetText.apart
  by_cases h : items = [] ∧ trail = true
  · obtain ⟨rfl, rfl⟩ := h
    rw [if_pos ⟨rfl, rfl⟩]
    refine ⟨hbody, .inl ⟨c, rfl, hc⟩, fun i hi => (by cases hi), fun i hi => ?_,
      fun h => (by cases h)⟩
    rw [List.mem_singleton.1 hi]
    exact show dash ≠ rbracket by decide
  · rw [if_neg h]
    refine ⟨hbody, .inl ⟨c, rfl, hc⟩, fun i hi => (hclear i (List.mem_of_mem_tail hi)).1,
      fun i hi => (hclear i hi).2, fun hnil => ?_⟩
    cases trail
    · rfl
    · exact absurd ⟨hnil, rfl⟩ h

/-- Items without a bracket. -/
theorem Scanset.clear (S : Scanset) {items : List Item} (hsub : ∀ i ∈ items, i ∈ S.items)
    (hno : rbracket ∉ items.flatMap Item.text) : Clear items := by
  intro i hi
  have hne {c : UInt8} (hc : c ∈ i.text) : c ≠ rbracket := fun h =>
    hno (List.mem_flatMap.2 ⟨i, hi, h ▸ hc⟩)
  refine ⟨⟨hne i.first_mem, ?_⟩, hne i.last_mem⟩
  exact (S.member i (hsub i hi) i.first List.mem_cons_self).2

/-- A well-formed set is taken as it is split. -/
theorem Scanset.taken (S : Scanset) :
    Taken S.toSetText S.split.1 S.split.2.1 S.split.2.2 := by
  have hclear := @Scanset.clear S
  obtain ⟨⟨negated, lead, items, trail⟩, hnonempty, hcaret, hbracket, hmember⟩ := S
  dsimp only at hbracket hnonempty hclear hmember ⊢
  unfold SetText.split
  cases lead with
  | true =>
    refine taken_apart (.inl rfl) (hclear (fun i hi => hi) fun h => hbracket ?_) rfl
    show rbracket ∈ items.flatMap Item.text ++ _
    exact List.mem_append_left _ h
  | false =>
    cases items with
    | nil =>
      cases trail with
      | true =>
        exact ⟨rfl, .inl ⟨dash, rfl, .inl rfl⟩, fun i hi => (by cases hi),
          fun i hi => (by cases hi), fun _ => rfl⟩
      | false => exact absurd rfl hnonempty
    | cons i items =>
      have hsub : ∀ j ∈ items, j ∈ i :: items := fun j hj => List.mem_cons_of_mem i hj
      have htail : rbracket ∉ i.text.tail ∧ rbracket ∉ items.flatMap Item.text := by
        have hbody : (SetText.body ⟨negated, false, i :: items, trail⟩).tail =
            i.text.tail ++ (items.flatMap Item.text ++ if trail then [dash] else []) := by
          cases i
          · rfl
          · rfl
        rw [hbody] at hbracket
        exact ⟨fun h => hbracket (List.mem_append_left _ h),
          fun h => hbracket (List.mem_append_right _ (List.mem_append_left _ h))⟩
      have hrest := hclear hsub htail.2
      have hi := hmember i List.mem_cons_self
      cases i with
      | one x =>
        dsimp only
        by_cases hx : x = rbracket
        · rw [if_pos hx]
          exact taken_apart (.inr rfl) hrest (by rw [hx]; rfl)
        · rw [if_neg hx]
          refine ⟨rfl, .inr ⟨rfl, _, _, rfl, (hi x List.mem_cons_self).2, hx⟩,
            fun j hj => (hrest j hj).1, fun j hj => ?_, fun h => by cases h⟩
          rcases List.mem_cons.1 hj with rfl | hj
          · exact hx
          · exact (hrest j hj).2
      | range x y =>
        have hy : y ≠ rbracket := fun h => htail.1 (h ▸ List.mem_cons_of_mem _ List.mem_cons_self)
        have hyd : y ≠ dash := (hi y (List.mem_cons_of_mem _ List.mem_cons_self)).2
        dsimp only
        by_cases hx : x = rbracket
        · rw [if_pos hx]
          refine ⟨by rw [hx]; rfl, .inl ⟨rbracket, rfl, .inr rfl⟩, fun j hj => ?_, fun j hj => ?_,
            fun h => by cases h⟩
          · rcases List.mem_cons.1 hj with rfl | hj
            · exact ⟨hy, hyd⟩
            · exact (hrest j hj).1
          · rcases List.mem_cons.1 hj with rfl | hj
            · exact show dash ≠ rbracket by decide
            · rcases List.mem_cons.1 hj with rfl | hj
              · exact hy
              · exact (hrest j hj).2
        · rw [if_neg hx]
          refine ⟨rfl, .inr ⟨rfl, _, _, rfl, (hi x List.mem_cons_self).2, hx⟩,
            fun j hj => (hrest j hj).1, fun j hj => ?_, fun h => by cases h⟩
          rcases List.mem_cons.1 hj with rfl | hj
          · exact hy
          · exact (hrest j hj).2

section

variable {S : SetText} {front rest : List UInt8} {i : Item} {items : List Item} {trail : Bool}

/-- One byte alone: its bracket is held back as a byte, and the format is read on. -/
theorem setFrom_alone (h : Taken S front [] trail) :
    setFrom (S.body ++ rbracket :: rest) = setLoop rest rbracket false front := by
  obtain ⟨c, rfl, hc⟩ | ⟨-, i, js, hi, -⟩ := h.front
  · rw [h.body, h.closed rfl]
    show setFrom (c :: rbracket :: rest) = _
    rw [setFrom, if_pos hc]
  · cases hi

/-- More than one byte. -/
theorem setFrom_items (h : Taken S front (i :: items) trail) :
    setFrom (S.body ++ rbracket :: rest) =
      if (singles i.last items trail).all fun c => decide (c < 128) then
        .ok (collect i.last items trail (i.span ++ front), rest)
      else .error .fault := by
  have htext (t : List UInt8) : i.text ++ t = i.first :: (i.text.tail ++ t) := by cases i <;> rfl
  have hbody : S.body ++ rbracket :: rest = front ++ i.first :: (i.text.tail ++
      (items.flatMap Item.text ++ ((if trail then [dash] else []) ++ rbracket :: rest))) := by
    rw [h.body, List.flatMap_cons, List.append_assoc, List.append_assoc, List.append_assoc, htext]
  have hlast : ∀ j ∈ items, j.last ≠ rbracket := fun j hj => h.last j (List.mem_cons_of_mem i hj)
  have hfirst : ∀ j ∈ items, j.first ≠ rbracket ∧ j.first ≠ dash := h.first
  rw [hbody, ← setLoop_items hfirst hlast, ← setLoop_rest (.inl (h.last i List.mem_cons_self))]
  obtain ⟨c, rfl, hc⟩ | ⟨rfl, i', js, hi, hd, hb⟩ := h.front
  · show setFrom (c :: i.first :: _) = _
    rw [setFrom, if_pos hc]
  · obtain ⟨rfl, rfl⟩ := List.cons.inj hi
    rw [List.nil_append]
    unfold setFrom
    dsimp only
    rw [if_neg fun h => h.elim hd hb]

end

/-- What the code makes of a well-formed set. -/
theorem setFrom_set (S : Scanset) (rest : List UInt8) :
    (S.split.2.1 = [] → setFrom (S.body ++ rbracket :: rest) =
      setLoop rest rbracket false S.split.1) ∧
    (S.split.2.1 ≠ [] → (∃ c ∈ S.alone, ¬c < 128) →
      setFrom (S.body ++ rbracket :: rest) = .error .fault) ∧
    (S.split.2.1 ≠ [] → (∀ c ∈ S.alone, c < 128) → ∃ set,
      setFrom (S.body ++ rbracket :: rest) = .ok (set, rest) ∧ ∀ b, decide (b ∈ set) = S.reads b) := by
  have h := S.taken
  unfold SetText.alone SetText.reads SetText.alone
  generalize S.split = split at h ⊢
  obtain ⟨front, items, trail⟩ := split
  dsimp only at h ⊢
  refine ⟨fun hnil => ?_, fun hne hout => ?_, fun hne hin => ?_⟩
  · subst hnil
    exact setFrom_alone h
  · obtain ⟨i, items, rfl⟩ := List.exists_cons_of_ne_nil hne
    rw [setFrom_items h, if_neg]
    intro hall
    obtain ⟨c, hc, hlt⟩ := hout
    exact hlt (all_below.1 hall c hc)
  · obtain ⟨i, items, rfl⟩ := List.exists_cons_of_ne_nil hne
    refine ⟨_, (setFrom_items h).trans (if_pos (all_below.2 hin)), fun b => ?_⟩
    rw [Bool.eq_iff_iff]
    simp only [decide_eq_true_eq, mem_collect, List.mem_append, Bool.or_eq_true, Bool.and_eq_true,
      List.any_cons, List.any_eq_true]
    simp only [singles, List.map_cons, or_assoc, or_left_comm, or_comm]

theorem scanSet_text (S : Scanset) (rest : List UInt8) : scanSet (S.text ++ rest) =
    match setFrom (S.body ++ rbracket :: rest) with
    | .error e => .error e
    | .ok (set, format) => .ok (set, S.negated, format) := by
  have hcaret := S.caret
  have hne := S.nonempty
  unfold scanSet SetText.text
  cases hn : S.negated with
  | true =>
    rw [if_pos rfl, List.append_assoc, List.append_assoc]
    rfl
  | false =>
    have hhead : (S.body ++ ([rbracket] ++ rest)).head? = some caret → False := by
      rw [List.head?_append_of_ne_nil _ hne]
      exact hcaret hn
    rw [if_neg Bool.false_ne_true, List.nil_append, List.append_assoc]
    dsimp only
    rw [if_neg fun h => hhead h, decide_eq_false hhead]
    rfl

/-! ## The conversion -/

section

variable {s : St} {l : List UInt8} {c n k : Nat} {i : Int} {z : Bool} {t : List UInt8}

theorem textLoop_value {p : UInt8 → Bool} (h : At s l c n) (hk : l.length ≤ k) :
    (textLoop p z k i t s).1 = t ++ run (fun c => p c && !(z && decide (c = 0))) i l := by
  induction k generalizing s l c i t with
  | zero =>
    obtain rfl := List.length_eq_zero_iff.mp (by omega : l.length = 0)
    rw [run_nil, List.append_nil]
    rfl
  | succ k ih =>
    rcases l with - | ⟨x, l⟩
    · simp only [textLoop, h.tpch, List.head?_nil]
      rw [run_nil, List.append_nil]
    · simp only [textLoop, h.tpch, List.head?_cons]
      rw [run_cons]
      have hiff : (i = 0 ∨ p x = false ∨ (z = true ∧ x = 0)) ↔
          (i = 0 ∨ (p x && !(z && decide (x = 0))) = false) := by
        rw [Bool.and_eq_false_iff, Bool.not_eq_false', Bool.and_eq_true, decide_eq_true_eq]
      by_cases hstop : i = 0 ∨ p x = false ∨ (z = true ∧ x = 0)
      · rw [if_pos hstop, if_pos (hiff.mp hstop), List.append_nil]
      · rw [if_neg hstop, if_neg (hiff.not.mp hstop), ih h.getc (by simpa using hk),
          List.append_assoc, List.singleton_append]

theorem textLoop_stored {p : UInt8 → Bool} : (textLoop p z k i t s).2.stored = s.stored := by
  induction k generalizing i t s with
  | zero => rfl
  | succ k ih =>
    rw [textLoop]
    split
    · rfl
    · split
      · rfl
      · exact ih

theorem length_run {p : UInt8 → Bool} : (run p i l).length ≤ l.length := by
  unfold run
  refine (List.takeWhile_sublist p).length_le.trans ?_
  split
  · exact Nat.le_refl _
  · exact (List.take_sublist _ _).length_le

/-- What a set conversion does on input that is left, for the longest prefix `x`. -/
def Converts (f : Flags) (rest x l : List UInt8) (c n : Nat) (s : St) : Except Stop Next → Prop
  | .ok (.go format s') => format = rest ∧ At s' (l.drop x.length) (c + x.length)
      (if f.discard ∨ x = [] then n else n + 1) ∧
      s'.stored = if f.discard then s.stored else s.stored ++ [.text (x ++ [0])]
  | _ => False

theorem convSet_converts {f : Flags} {format rest set : List UInt8} {neg : Bool} (h : At s l c n)
    (hset : scanSet format = .ok (set, neg, rest)) :
    Converts f rest (run (fun b => (decide (b ∈ set) ^^ neg) && !decide (b = 0)) f.width l) l c n s
      (convSet f format s) := by
  have hmoved := (textLoop_moved (p := fun b => decide (b ∈ set) ^^ neg) (z := true) (t := [])
    (i := f.width) h h.fuel).1
  have hvalue := textLoop_value (p := fun b => decide (b ∈ set) ^^ neg) (z := true) (t := [])
    (i := f.width) h h.fuel
  have hstored := textLoop_stored (p := fun b => decide (b ∈ set) ^^ neg) (z := true) (t := [])
    (i := f.width) (k := s.rest.length + 1) (s := s)
  unfold convSet
  rw [hset]
  dsimp only
  generalize textLoop (fun b => decide (b ∈ set) ^^ neg) true _ f.width [] s = r at *
  obtain ⟨x, s'⟩ := r
  simp only [behind_eq, Bool.true_and, List.nil_append] at hmoved hvalue hstored ⊢
  have hlen : x.length ≤ l.length := hvalue ▸ length_run
  rw [← hvalue] at hmoved ⊢
  obtain ⟨-, hat⟩ := hmoved
  rw [List.length_drop, show l.length - (l.length - x.length) = x.length by omega] at hat
  cases hd : f.discard with
  | true =>
    rw [if_pos rfl]
    refine ⟨rfl, ?_, ?_⟩
    · rw [if_pos (.inl hd)]
      exact hat
    · rw [if_pos hd]
      exact hstored
  | false =>
    rw [if_neg Bool.false_ne_true]
    refine ⟨rfl, hat.with_n rfl rfl rfl ?_, ?_⟩
    · show (if x = [] then s'.n else s'.n + 1) = _
      simp only [hd, Bool.false_eq_true, false_or, hat.stored]
    · rw [hd, if_neg Bool.false_ne_true, ← hstored]
      rfl

end

/-- A set conversion, with any flags, takes the longest prefix of bytes that are meant, and the format
goes on behind its bracket. -/
def SetText.Right (S : SetText) : Prop :=
  ∀ (f : Flags) (rest l : List UInt8) (s : St) (c n : Nat), At s l c n → l ≠ [] →
    Converts f rest (run S.denotes f.width l) l c n s (inScan f (lbracket :: (S.text ++ rest)) s)

/-- The set is more than one byte, the table is indexed inside, and the bytes that are read are those
that are meant. -/
structure SetText.Fine (S : SetText) : Prop where
  closes : S.split.2.1 ≠ []
  inside : ∀ c ∈ S.alone, c < 128
  same : ∀ b, b ≠ 0 → S.reads b = S.members b

theorem inScan_set {f : Flags} {format : List UInt8} {s : St} {l : List UInt8} {c n : Nat}
    (h : At s l c n) (hl : l ≠ []) : inScan f (lbracket :: format) s = convSet f format s := by
  have htpch : s.tpch ≠ none := by
    rw [h.tpch]
    simpa using hl
  rw [inScan_conv htpch rfl]
  rfl

theorem convSet_error {f : Flags} {format : List UInt8} {s : St} {e : Stop}
    (h : scanSet format = .error e) : convSet f format s = .error e := by
  rw [convSet, h]

/-- The prefixes that a conversion takes are of one length. -/
theorem Converts.unique {f : Flags} {rest x y l : List UInt8} {c n : Nat} {s : St}
    {r : Except Stop Next} (hx : Converts f rest x l c n s r) (hy : Converts f rest y l c n s r) :
    l.drop x.length = l.drop y.length := by
  rcases r with e | (⟨format, s'⟩ | ⟨e⟩)
  · exact hx.elim
  · exact hx.2.1.unique hy.2.1
  · exact hx.elim

theorem run_single (p : UInt8 → Bool) (b : UInt8) : run p (-1) [b] = if p b then [b] else [] := by
  rw [run_cons, run_nil]
  cases p b
  · rfl
  · rfl

theorem single_inj {p q : UInt8 → Bool} {b : UInt8}
    (h : [b].drop (run p (-1) [b]).length = [b].drop (run q (-1) [b]).length) : p b = q b := by
  rw [run_single, run_single] at h
  cases hp : p b
  · cases hq : q b
    · rfl
    · rw [hp, hq] at h
      cases h
  · cases hq : q b
    · rw [hp, hq] at h
      cases h
    · rfl

/-- A set that is fine is read as it is meant. -/
theorem SetText.Fine.denotes {S : SetText} (h : S.Fine) {set : List UInt8}
    (hset : ∀ b, decide (b ∈ set) = S.reads b) :
    (fun b => (decide (b ∈ set) ^^ S.negated) && !decide (b = 0)) = S.denotes := by
  funext b
  unfold SetText.denotes
  by_cases hb : b = 0
  · simp [hb]
  · rw [hset, h.same b hb]

/-- **When a scanset denotes the set that is meant.** -/
theorem scanset_right (S : Scanset) : S.Right ↔ S.Fine := by
  constructor
  · intro hright
    have hat (b : UInt8) : At ⟨[], some b, 1, 0, []⟩ [b] 0 0 := ⟨rfl, rfl, rfl, rfl⟩
    have hconv (b : UInt8) := hright noFlags [] [b] _ 0 0 (hat b) (List.cons_ne_nil _ _)
    have hfault : setFrom (S.body ++ rbracket :: []) ≠ .error .fault := by
      intro h
      have hscan : scanSet (S.text ++ []) = .error .fault := by rw [scanSet_text, h]
      have h0 := hconv 0
      rw [inScan_set (hat 0) (List.cons_ne_nil _ _), convSet_error hscan] at h0
      exact h0
    obtain ⟨halone, hout, hin⟩ := setFrom_set S []
    have hcloses : S.split.2.1 ≠ [] := fun hnil => hfault (halone hnil)
    have hinside : ∀ c ∈ S.alone, c < 128 := by
      intro c hc
      by_contra hlt
      exact hfault (hout hcloses ⟨c, hc, hlt⟩)
    refine ⟨hcloses, hinside, fun b hb => ?_⟩
    obtain ⟨set, hset, hreads⟩ := hin hcloses hinside
    have hscan : scanSet (S.text ++ []) = .ok (set, S.negated, []) := by rw [scanSet_text, hset]
    have hcode := convSet_converts (f := noFlags) (hat b) hscan
    have hmeant := hconv b
    rw [inScan_set (hat b) (List.cons_ne_nil _ _)] at hmeant
    have hsame := single_inj (hcode.unique hmeant)
    simp only [SetText.denotes, hb, decide_false, Bool.not_false, Bool.and_true] at hsame
    rw [← hreads b]
    exact (Bool.xor_left_inj (z := S.negated)).1 hsame
  · intro hfine f rest l s c n h hl
    obtain ⟨-, -, hin⟩ := setFrom_set S rest
    obtain ⟨set, hset, hreads⟩ := hin hfine.closes hfine.inside
    have hscan : scanSet (S.text ++ rest) = .ok (set, S.negated, rest) := by rw [scanSet_text, hset]
    have hcode := convSet_converts (f := f) h hscan
    rw [hfine.denotes hreads] at hcode
    rw [inScan_set h hl]
    exact hcode

theorem member_one {b : UInt8} (h : b ≠ 0 ∧ b ≠ dash) :
    ∀ i ∈ [Item.one b], ∀ c ∈ [i.first, i.last], c ≠ 0 ∧ c ≠ dash := by
  intro i hi c hc
  obtain rfl := List.mem_singleton.1 hi
  obtain rfl | hc := List.mem_cons.1 hc
  · exact h
  · obtain rfl := List.mem_singleton.1 hc
    exact h

/-- `%[a-]` takes no `a`: it is dropped for the `-` behind it. -/
theorem scanset_dropped : ∃ S : Scanset, S.text = [97, 45, 93] ∧ ¬S.Right := by
  refine ⟨⟨⟨false, false, [.one 97], true⟩, List.cons_ne_nil _ _, fun _ h => (by cases h), by decide,
    member_one ⟨by decide, by decide⟩⟩, rfl, fun hright => ?_⟩
  have hat : At ⟨[], some 97, 1, 0, []⟩ [97] 0 0 := ⟨rfl, rfl, rfl, rfl⟩
  have hmeant := hright noFlags [] [97] _ 0 0 hat (List.cons_ne_nil _ _)
  have hset : scanSet [97, 45, 93] = .ok ([dash], false, []) := rfl
  have hcode : Converts noFlags [] _ [97] 0 0 _ _ := convSet_converts hat hset
  rw [inScan_set hat (List.cons_ne_nil _ _)] at hmeant
  exact absurd (single_inj (hcode.unique hmeant)) (by decide)

end Scanf

end Dietlibc
