import Dietlibc.Rx.Match
import Dietlibc.Base.Item
import Dietlibc.Base.CInt

/-!
# Bracket expressions

`parsebracketed` fills a table of bits, and the atom tests it. `scan` reads the bytes and ranges that
stand between the brackets; `setcc` gets the numbers of an item (`bitsOf`), of which the code wants
the word inside the table and the count of the shift below 32.
-/

namespace Dietlibc.Rx

open Shell (dash lbracket rbracket)

/-! ## The bit table -/

/-- The bit that stands for `b`. -/
def bitOf (x : Cc) (b : Nat) : Bool := (x.getD (b / 32) 0).toBitVec.getLsbD ((b % 32 + 31) % 32)

theorem ccMask_eq (b : Nat) : (ccMask b).toBitVec = BitVec.twoPow 32 ((b % 32 + 31) % 32) := by
  have h : ∀ j : Fin 32, ((1 : UInt32) <<< UInt32.ofNat j).toBitVec = BitVec.twoPow 32 j := by
    decide +kernel
  exact h ⟨(b % 32 + 31) % 32, Nat.mod_lt _ (by decide)⟩

/-- A mask of one bit tests that bit. -/
theorem and_mask {w m : UInt32} {j : Nat} (hj : j < 32) (hm : m.toBitVec = BitVec.twoPow 32 j) :
    decide (w &&& m ≠ 0) = w.toBitVec.getLsbD j := by
  have hne : BitVec.twoPow 32 j ≠ 0#32 := by
    intro h
    have hbit := congrArg (fun v => v.getLsbD j) h
    simp [hj] at hbit
  have hand : (w &&& m).toBitVec = if w.toBitVec.getLsbD j then BitVec.twoPow 32 j else 0#32 := by
    rw [UInt32.toBitVec_and, hm, BitVec.and_twoPow]
  cases hbit : w.toBitVec.getLsbD j
  · rw [hbit, if_neg Bool.false_ne_true] at hand
    exact decide_eq_false fun h => h (UInt32.toBitVec_inj.1 hand)
  · rw [hbit, if_pos rfl] at hand
    refine decide_eq_true fun h => hne ?_
    rw [← hand, h]
    rfl

theorem issetcc_eq (x : Cc) (b : Nat) : issetcc x b = bitOf x b :=
  and_mask (Nat.mod_lt _ (by decide)) (ccMask_eq b)

theorem getD_modify (x : Cc) (f : UInt32 → UInt32) {i : Nat} (hi : i < x.length) (j : Nat) :
    (x.modify i f).getD j 0 = if i = j then f (x.getD j 0) else x.getD j 0 := by
  rw [List.getD_eq_getElem?_getD, List.getD_eq_getElem?_getD, List.getElem?_modify]
  by_cases h : i = j
  · subst h
    rw [if_pos rfl, List.getElem?_eq_getElem hi]
    simp
  · simp [h]

/-- A bit that is set. -/
theorem setcc_ok {x : Cc} (hx : x.length = 32) {b : Nat} (hb : b < 1024) :
    ∃ y, setcc x b = .ok y ∧ y.length = 32 ∧ ∀ b', bitOf y b' = (bitOf x b' || decide (b' = b)) := by
  have hmod : ((b : Int) % 2 ^ 32).toNat = b := by omega
  unfold setcc
  rw [hmod]
  dsimp only
  rw [if_pos (by omega)]
  refine ⟨_, rfl, by rw [List.length_modify, hx], fun b' => ?_⟩
  unfold bitOf
  rw [getD_modify x _ (by omega)]
  by_cases hword : b / 32 = b' / 32
  · rw [if_pos hword, UInt32.toBitVec_or, BitVec.getLsbD_or, ccMask_eq, BitVec.getLsbD_twoPow]
    congr 1
    rw [Bool.eq_iff_iff]
    simp only [Bool.and_eq_true, decide_eq_true_eq]
    omega
  · rw [if_neg hword, decide_eq_false (by rintro rfl; exact hword rfl), Bool.or_false]

theorem setcc_fault {x : Cc} {b : Int} (h : b < 0) (h' : -2 ^ 31 ≤ b) :
    setcc x b = .error .fault := by
  unfold setcc
  dsimp only
  rw [if_neg (by omega)]

theorem bitOf_clear (b : Nat) : bitOf clearcc b = false := by
  have h : clearcc.getD (b / 32) 0 = 0 := by
    rw [clearcc, List.getD_eq_getElem?_getD, List.getElem?_replicate]
    split <;> rfl
  rw [bitOf, h]
  exact BitVec.getLsbD_zero

theorem bitOf_compl {x : Cc} (hx : x.length = 32) {b : Nat} (hb : b < 1024) :
    bitOf (x.map (~~~ ·)) b = !bitOf x b := by
  have hword : b / 32 < x.length := by omega
  have h : (x.map (~~~ ·)).getD (b / 32) 0 = ~~~ x.getD (b / 32) 0 := by
    rw [List.getD_eq_getElem?_getD, List.getD_eq_getElem?_getD, List.getElem?_map,
      List.getElem?_eq_getElem hword]
    rfl
  rw [bitOf, h, UInt32.toBitVec_not, BitVec.getLsbD_not,
    decide_eq_true (Nat.mod_lt _ (by decide)), Bool.true_and]
  rfl

/-! ## What stands between the brackets -/

/-- Where the items end: at the bracket, at the end of the pattern, or there behind a byte and `-`. -/
inductive Ending where
  | closed (rest : Ptr)
  | cut
  | dash
  deriving DecidableEq

/-- The bytes and ranges behind the bracket, of which the first byte may be any. -/
def scan : Ptr → List Item × Ending
  | [] => ([], .cut)
  | c :: t =>
    match t with
    | d :: e :: u =>
      if d = dash ∧ e ≠ rbracket then
        let r := if u.head? = some rbracket then ([], .closed u.tail) else scan u
        (.range c e :: r.1, r.2)
      else if d = rbracket then ([.one c], .closed (e :: u))
      else
        let r := scan (d :: e :: u)
        (.one c :: r.1, r.2)
    | [d] =>
      if d = dash then ([.one c], .dash)
      else if d = rbracket then ([.one c], .closed [])
      else
        let r := scan [d]
        (.one c :: r.1, r.2)
    | [] => ([.one c], .cut)

/-- Whether `^` is behind the bracket. -/
def negated (p : Ptr) : Bool := p.tail.head? = some caret

/-- What is behind the bracket and `^`. -/
def members (p : Ptr) : Ptr := if negated p then p.tail.tail else p.tail

/-- The set that a bracket expression denotes. -/
def bracketSet (p : Ptr) (b : UInt8) : Bool := (scan (members p)).1.any (Item.denotes b) ^^ negated p

/-! ## The numbers that are set -/

section

variable (set : Cc → Int → Except Stop Cc) (fl : Cflags)

/-- `setRange`, with any function for `setcc`. -/
def setRangeBy (i : Int) : Nat → Cc → Except Stop Cc
  | 0, x => .ok x
  | n + 1, x => do setRangeBy (i + 1) n (← set x (foldInt fl i))

/-- `bracketLoop`, with any function for `setcc`. -/
def bracketLoopBy : Ptr → Cc → Except Stop (Option (Cc × Ptr))
  | [], _ => .ok none
  | c :: t, x => do
    let x ← set x (foldInt fl (schar c))
    match t with
    | d :: e :: u =>
      if d = dash ∧ e ≠ rbracket then
        let x ← setRangeBy set fl (schar c + 1) (schar e - schar c).toNat x
        if u.head? = some rbracket then .ok (some (x, u.tail)) else bracketLoopBy u x
      else if d = rbracket then .ok (some (x, e :: u)) else bracketLoopBy (d :: e :: u) x
    | [d] =>
      if d = dash then .error .fault
      else if d = rbracket then .ok (some (x, [])) else bracketLoopBy [d] x
    | [] => .ok none

/-- `parsebracketed`, with any function for `setcc`. -/
def parsebracketedBy : Ptr → Except Stop (Option (Cc × Ptr))
  | [] => .ok none
  | c :: t =>
    if c ≠ lbracket then .ok none
    else if t.head? = some caret then do
      let r ← bracketLoopBy set fl t.tail clearcc
      .ok (r.map fun (x, t) => (x.map (~~~ ·), t))
    else bracketLoopBy set fl t clearcc

end

variable {fl : Cflags}

theorem setRangeBy_setcc (i : Int) (n : Nat) (x : Cc) :
    setRangeBy setcc fl i n x = setRange fl i n x := by
  induction n generalizing i x with
  | zero => rfl
  | succ n ih =>
    unfold setRangeBy setRange
    cases setcc x (foldInt fl i) with
    | error e => rfl
    | ok y => exact ih (i + 1) y

theorem bracketLoopBy_setcc (s : Ptr) (x : Cc) :
    bracketLoopBy setcc fl s x = bracketLoop fl s x := by
  fun_induction bracketLoop fl s x with
  | case1 => rfl
  | case2 c t x ih =>
    rw [bracketLoopBy]
    cases hset : setcc x (foldInt fl (schar c)) with
    | error e => rfl
    | ok y =>
      have ih := ih y
      rcases t with - | ⟨d, - | ⟨e, u⟩⟩
      · rfl
      · dsimp only at ih
        show (if d = dash then _ else if d = rbracket then _ else bracketLoopBy setcc fl [d] y) = _
        rw [ih]
        rfl
      · dsimp only at ih
        show (if d = dash ∧ e ≠ rbracket then
            setRangeBy setcc fl (schar c + 1) (schar e - schar c).toNat y >>= fun x =>
              if u.head? = some rbracket then _ else bracketLoopBy setcc fl u x
          else if d = rbracket then _ else bracketLoopBy setcc fl (d :: e :: u) y) = _
        rw [ih.2, setRangeBy_setcc, funext fun x => congrArg (ite _ _) (ih.1 x)]
        rfl

theorem parsebracketedBy_setcc (p : Ptr) : parsebracketedBy setcc fl p = parsebracketed fl p := by
  rcases p with - | ⟨c, t⟩
  · rfl
  · rw [parsebracketedBy, bracketLoopBy_setcc, bracketLoopBy_setcc]
    rfl

/-- The numbers that are set for an item. -/
def itemBits : Item → List Int
  | .one c => [schar c]
  | .range c e =>
    schar c :: (List.range (schar e - schar c).toNat).map fun k : Nat => schar c + 1 + (k : Int)

/-- What is returned at the end of the items. -/
def Ending.result : Ending → Cc → Except Stop (Option (Cc × Ptr))
  | closed e, x => .ok (some (x, e))
  | cut, _ => .ok none
  | dash, _ => .error .fault

theorem setRangeBy_eq (set : Cc → Int → Except Stop Cc) (hi : fl.icase = false) (i : Int) (n : Nat)
    (x : Cc) : setRangeBy set fl i n x =
      ((List.range n).map fun k : Nat => i + (k : Int)).foldlM set x := by
  induction n generalizing i x with
  | zero => rfl
  | succ n ih =>
    have hfold : foldInt fl i = i := by rw [foldInt, hi, if_neg Bool.false_ne_true]
    rw [setRangeBy, hfold, List.range_succ_eq_map, List.map_cons, List.map_map, List.foldlM_cons,
      show i + ((0 : Nat) : Int) = i by omega]
    refine bind_congr fun y => ?_
    rw [ih]
    congr 2
    funext k
    show i + 1 + (k : Int) = i + ((k + 1 : Nat) : Int)
    omega

theorem fold_one (set : Cc → Int → Except Stop Cc) (c : UInt8) (items : List Item) (e : Ending)
    (x : Cc) : ((Item.one c :: items).flatMap itemBits).foldlM set x >>= e.result =
      set x (schar c) >>= fun y => (items.flatMap itemBits).foldlM set y >>= e.result := by
  rw [List.flatMap_cons, List.foldlM_append, bind_assoc]
  show (set x (schar c) >>= fun y => pure y) >>= _ = _
  rw [bind_assoc]
  simp only [pure_bind]

theorem fold_range (set : Cc → Int → Except Stop Cc) (c d : UInt8) (items : List Item) (e : Ending)
    (x : Cc) : ((Item.range c d :: items).flatMap itemBits).foldlM set x >>= e.result =
      set x (schar c) >>= fun y => ((List.range (schar d - schar c).toNat).map fun k : Nat =>
        schar c + 1 + (k : Int)).foldlM set y >>= fun z =>
          (items.flatMap itemBits).foldlM set z >>= e.result := by
  rw [List.flatMap_cons, List.foldlM_append, bind_assoc, itemBits, List.foldlM_cons, bind_assoc]

/-- The loop sets the numbers of the items in turn. -/
theorem bracketLoopBy_eq (set : Cc → Int → Except Stop Cc) (hi : fl.icase = false) (s : Ptr) (x : Cc) :
    bracketLoopBy set fl s x =
      ((scan s).1.flatMap itemBits).foldlM set x >>= (scan s).2.result := by
  have hfold (i : Int) : foldInt fl i = i := by rw [foldInt, hi, if_neg Bool.false_ne_true]
  fun_induction bracketLoopBy set fl s x with
  | case1 => rfl
  | case2 c t x ih =>
    rw [hfold]
    rcases t with - | ⟨d, - | ⟨e, u⟩⟩
    · rw [scan, fold_one]
      rfl
    · rw [scan]
      by_cases hd : d = dash
      · simp only [if_pos hd]
        rw [fold_one]
        rfl
      · by_cases hb : d = rbracket
        · simp only [if_neg hd, if_pos hb]
          rw [fold_one]
          rfl
        · simp only [if_neg hd, if_neg hb]
          rw [fold_one]
          exact bind_congr fun y => ih y
    · rw [scan]
      by_cases hd : d = dash ∧ e ≠ rbracket
      · simp only [if_pos hd]
        rw [fold_range]
        refine bind_congr fun y => ?_
        rw [setRangeBy_eq set hi]
        refine bind_congr fun z => ?_
        by_cases hu : u.head? = some rbracket
        · rw [if_pos hu, if_pos hu]
          rfl
        · rw [if_neg hu, if_neg hu]
          exact (ih y).1 z
      · by_cases hb : d = rbracket
        · simp only [if_neg hd, if_pos hb]
          rw [fold_one]
          rfl
        · simp only [if_neg hd, if_neg hb]
          rw [fold_one]
          exact bind_congr fun y => (ih y).2

/-! ## The numbers that are set -/

/-- `(bit%32)-1` -/
def shiftCount (bit : Int) : Nat := CInt.usub 32 ((bit % 2 ^ 32).toNat % 32) 1

/-- `setcc` that stops where the count of the shift is not below 32. -/
def setccChecked (x : Cc) (bit : Int) : Except Stop Cc :=
  if shiftCount bit < 32 then setcc x bit else .error .fault

theorem schar_bounds (c : UInt8) : -128 ≤ schar c ∧ schar c < 128 := by
  have := c.toNat_lt
  rw [schar_eq]
  split <;> omega

theorem itemBits_bounds {i : Item} {b : Int} (h : b ∈ itemBits i) : -128 ≤ b ∧ b < 128 := by
  cases i with
  | one c =>
    obtain rfl := List.mem_singleton.1 h
    exact schar_bounds c
  | range c e =>
    have hc := schar_bounds c
    have he := schar_bounds e
    rcases List.mem_cons.1 h with rfl | h
    · exact hc
    · obtain ⟨k, hk, rfl⟩ := List.mem_map.1 h
      rw [List.mem_range] at hk
      omega

/-- Numbers with a word in the table and a count of the shift below 32. -/
def Good (b : Int) : Prop := 0 < b ∧ b % 32 ≠ 0

theorem shiftCount_eq (b : Int) : shiftCount b < 32 ↔ b % 32 ≠ 0 := by
  unfold shiftCount CInt.usub
  omega

theorem checked_ok {b : Int} (h : Good b) (x : Cc) : setccChecked x b = setcc x b :=
  if_pos ((shiftCount_eq b).2 h.2)

theorem checked_fault {b : Int} (hb : -128 ≤ b) (h : ¬Good b) (x : Cc) :
    setccChecked x b = .error .fault := by
  unfold setccChecked
  by_cases hs : b % 32 = 0
  · rw [if_neg fun h => (shiftCount_eq b).1 h hs]
  · rw [if_pos ((shiftCount_eq b).2 hs)]
    have hneg : b < 0 := by
      by_contra hpos
      exact h ⟨by omega, hs⟩
    exact setcc_fault hneg (by omega)

/-- Good numbers are set. -/
theorem fold_good {bits : List Int} (h : ∀ b ∈ bits, Good b ∧ b < 128) {x : Cc} (hx : x.length = 32) :
    ∃ y, bits.foldlM setccChecked x = .ok y ∧ bits.foldlM setcc x = .ok y ∧ y.length = 32 ∧
      ∀ b : Nat, bitOf y b = (bitOf x b || decide ((b : Int) ∈ bits)) := by
  induction bits generalizing x with
  | nil => exact ⟨x, rfl, rfl, hx, fun b => by simp⟩
  | cons a bits ih =>
    obtain ⟨hgood, hlt⟩ := h a List.mem_cons_self
    obtain ⟨n, rfl⟩ : ∃ n : Nat, a = n := ⟨a.toNat, by have := hgood.1; omega⟩
    obtain ⟨y, hy, hlen, hbits⟩ := setcc_ok hx (b := n) (by omega)
    obtain ⟨z, hz, hz', hlen', hbits'⟩ := ih (fun b hb => h b (List.mem_cons_of_mem _ hb)) hlen
    refine ⟨z, ?_, ?_, hlen', fun b => ?_⟩
    · rw [List.foldlM_cons, checked_ok hgood, hy]
      exact hz
    · rw [List.foldlM_cons, hy]
      exact hz'
    · rw [hbits', hbits, Bool.or_assoc]
      congr 1
      rw [Bool.eq_iff_iff]
      simp [Nat.cast_inj]

/-- A number that is not good is found. -/
theorem fold_bad {bits : List Int} (hb : ∀ b ∈ bits, -128 ≤ b) (h : ∃ b ∈ bits, ¬Good b) (x : Cc) :
    ∃ e, bits.foldlM setccChecked x = .error e := by
  induction bits generalizing x with
  | nil =>
    obtain ⟨b, hb, -⟩ := h
    cases hb
  | cons a bits ih =>
    rw [List.foldlM_cons]
    by_cases ha : Good a
    · cases setccChecked x a with
      | error e => exact ⟨e, rfl⟩
      | ok y =>
        refine ih (fun b hb' => hb b (List.mem_cons_of_mem _ hb')) ?_ y
        obtain ⟨b, hmem, hbad⟩ := h
        rcases List.mem_cons.1 hmem with rfl | hmem
        · exact absurd ha hbad
        · exact ⟨b, hmem, hbad⟩
    · rw [checked_fault (hb a List.mem_cons_self) ha]
      exact ⟨_, rfl⟩

/-- The numbers of an item are good if they stay between two multiples of 32. -/
theorem itemBits_good (i : Item) : (∀ b ∈ itemBits i, Good b) ↔
    i.first.toNat < 128 ∧ i.first.toNat % 32 ≠ 0 ∧ (i.first.toNat ≤ i.last.toNat → i.last.toNat < 128 →
      i.first.toNat / 32 = i.last.toNat / 32) := by
  have hchar (c : UInt8) : Good (schar c) ↔ c.toNat < 128 ∧ c.toNat % 32 ≠ 0 := by
    have := c.toNat_lt
    rw [schar_eq, Good]
    split <;> omega
  cases i with
  | one c =>
    rw [itemBits, List.forall_mem_singleton, hchar]
    exact ⟨fun h => ⟨h.1, h.2, fun _ _ => rfl⟩, fun h => ⟨h.1, h.2.1⟩⟩
  | range c e =>
    have he := e.toNat_lt
    rw [itemBits, List.forall_mem_cons, hchar]
    dsimp only [Item.first, Item.last]
    rw [and_assoc]
    refine and_congr_right fun hc => and_congr_right fun hm => ?_
    rw [schar_eq c, if_pos hc]
    constructor
    · intro h hle hlt
      by_contra hne
      -- the next multiple of 32 is in the range
      have hgood := h ((32 * (c.toNat / 32 + 1) : Nat) : Int) (by
        rw [List.mem_map]
        refine ⟨32 * (c.toNat / 32 + 1) - c.toNat - 1, ?_, by omega⟩
        rw [List.mem_range, schar_eq, if_pos hlt]
        omega)
      exact hgood.2 (by omega)
    · intro h b hb
      obtain ⟨k, hk, rfl⟩ := List.mem_map.1 hb
      rw [List.mem_range, schar_eq] at hk
      split at hk
      · have := h (by omega) (by assumption)
        exact ⟨by omega, by omega⟩
      · omega

/-- The numbers of an item without high bytes: the first one, and the range. -/
theorem mem_itemBits {i : Item} (hf : i.first.toNat < 128) (hl : i.last.toNat < 128) (b : UInt8) :
    ((b.toNat : Nat) : Int) ∈ itemBits i ↔ b = i.first ∨ i.denotes b = true := by
  cases i with
  | one c =>
    have hc : c.toNat < 128 := hf
    rw [itemBits, List.mem_singleton, schar_eq, if_pos hc, Nat.cast_inj, UInt8.toNat_inj]
    show _ ↔ b = c ∨ decide (b = c) = true
    rw [decide_eq_true_eq, or_self]
  | range c e =>
    have hc : c.toNat < 128 := hf
    have he : e.toNat < 128 := hl
    rw [itemBits, List.mem_cons, schar_eq, schar_eq, if_pos hc, if_pos he, Nat.cast_inj,
      UInt8.toNat_inj, List.mem_map]
    show _ ↔ b = c ∨ (decide (c ≤ b) && decide (b ≤ e)) = true
    rw [Bool.and_eq_true, decide_eq_true_eq, decide_eq_true_eq, UInt8.le_iff_toNat_le,
      UInt8.le_iff_toNat_le, ← UInt8.toNat_inj]
    constructor
    · rintro (h | ⟨k, hk, h⟩)
      · exact .inl h
      · rw [List.mem_range] at hk
        exact .inr (by omega)
    · rintro (h | h)
      · exact .inl h
      · by_cases heq : b.toNat = c.toNat
        · exact .inl heq
        · refine .inr ⟨b.toNat - c.toNat - 1, ?_, by omega⟩
          rw [List.mem_range]
          omega

theorem itemBits_low {i : Item} {b : UInt8} (h : ((b.toNat : Nat) : Int) ∈ itemBits i) :
    b.toNat < 128 := by
  have := (itemBits_bounds h).2
  omega

/-! ## The expression and its atom -/

variable {p : Ptr}

theorem parsebracketedBy_eq (set : Cc → Int → Except Stop Cc) (hi : fl.icase = false)
    (hp : p.head? = some lbracket) : parsebracketedBy set fl p =
      (((scan (members p)).1.flatMap itemBits).foldlM set clearcc >>= (scan (members p)).2.result) >>=
        fun r => .ok (if negated p then r.map fun (x, t) => (x.map (~~~ ·), t) else r) := by
  obtain ⟨u, rfl⟩ := List.head?_eq_some_iff.1 hp
  rw [← bracketLoopBy_eq set hi, parsebracketedBy, if_neg (fun h => h rfl)]
  by_cases hc : u.head? = some caret
  · have hneg : negated (lbracket :: u) = true := decide_eq_true hc
    rw [if_pos hc, members, if_pos hneg]
    simp only [hneg, if_true]
    rfl
  · have hneg : negated (lbracket :: u) = false := decide_eq_false hc
    rw [if_neg hc, members, hneg, if_neg Bool.false_ne_true]
    simp only [Bool.false_eq_true, if_false]
    exact (bind_pure _).symm

/-- The atom matches a byte whose bit is set, but for the end of a line. -/
theorem matchatom_bracket {x : Input} {cc : Cc} {ofs : Nat} {l : Marks} (hi : x.fl.icase = false)
    (h0 : x.char ofs ≠ 0) : matchatom x (.bracket cc) none ofs 0 l = .ok (some 1, l) ↔
      ¬(x.char ofs = newlineChar ∧ x.fl.newline = true) ∧ bitOf cc (x.char ofs).toNat = true := by
  have hfold : x.fold ofs = x.char ofs := by rw [Input.fold, hi, if_neg Bool.false_ne_true]
  simp only [matchatom, atomLength, hfold, issetcc_eq]
  by_cases hn : x.char ofs = newlineChar ∧ x.fl.newline = true
  · simp [hn]
  · by_cases hb : bitOf cc (x.char ofs).toNat = true
    · simp [hn, h0, hb, goOn]
    · simp [hn, hb]

/-- A bracket expression is read inside the pattern, its bits are set inside the table with counts
below 32, and what it matches is the set it denotes. -/
structure BracketRight (fl : Cflags) (p : Ptr) : Prop where
  safe : ∃ r, parsebracketedBy setccChecked fl p = .ok r
  set : ∀ cc e, parsebracketed fl p = .ok (some (cc, e)) → ∀ (x : Input) (ofs : Nat) (l : Marks),
    x.fl = fl → x.char ofs ≠ 0 →
      (matchatom x (.bracket cc) none ofs 0 l = .ok (some 1, l) ↔ bracketSet p (x.char ofs) = true)

/-- No dash in front of the end; all items in the lower half of the bytes, between two multiples of
32; and in an expression that is closed no range that falls, and no end of a line if that is apart. -/
structure BracketFine (fl : Cflags) (p : Ptr) : Prop where
  inside : (scan (members p)).2 ≠ .dash
  bits : ∀ i ∈ (scan (members p)).1, i.first.toNat < 128 ∧ i.first.toNat % 32 ≠ 0 ∧
    (i.first.toNat ≤ i.last.toNat → i.last.toNat < 128 → i.first.toNat / 32 = i.last.toNat / 32)
  high : ∀ e, (scan (members p)).2 = .closed e → ∀ i ∈ (scan (members p)).1, i.last.toNat < 128
  falling : ∀ e, (scan (members p)).2 = .closed e → ∀ i ∈ (scan (members p)).1, i.last < i.first →
    (i.first = newlineChar ∧ fl.newline = true) ∨ ∃ j ∈ (scan (members p)).1, j.denotes i.first = true
  newline : ∀ e, (scan (members p)).2 = .closed e → fl.newline = true →
    bracketSet p newlineChar = false

/-- What is parsed where all numbers are good. -/
theorem parse_good (hi : fl.icase = false) (hp : p.head? = some lbracket)
    (hgood : ∀ b ∈ (scan (members p)).1.flatMap itemBits, Good b) :
    ∃ cc : Cc, (∀ b : UInt8, bitOf cc b.toNat =
        (decide (((b.toNat : Nat) : Int) ∈ (scan (members p)).1.flatMap itemBits) ^^ negated p)) ∧
      ∀ set, set = setcc ∨ set = setccChecked → parsebracketedBy set fl p =
        match (scan (members p)).2 with
        | .closed e => .ok (some (cc, e))
        | .cut => .ok none
        | .dash => .error .fault := by
  have hlt : ∀ b ∈ (scan (members p)).1.flatMap itemBits, Good b ∧ b < 128 := by
    intro b hb
    obtain ⟨i, -, hbi⟩ := List.mem_flatMap.1 hb
    exact ⟨hgood b hb, (itemBits_bounds hbi).2⟩
  obtain ⟨y, hy, hy', hlen, hbits⟩ := fold_good hlt (x := clearcc) (List.length_replicate ..)
  refine ⟨if negated p then y.map (~~~ ·) else y, fun b => ?_, fun set hset => ?_⟩
  · have hb := b.toNat_lt
    cases negated p
    · rw [if_neg Bool.false_ne_true, hbits, bitOf_clear, Bool.false_or, Bool.xor_false]
    · rw [if_pos rfl, bitOf_compl hlen (by omega), hbits, bitOf_clear, Bool.false_or, Bool.xor_true]
  · have hfold : ((scan (members p)).1.flatMap itemBits).foldlM set clearcc = .ok y := by
      rcases hset with rfl | rfl
      · exact hy'
      · exact hy
    rw [parsebracketedBy_eq set hi hp, hfold]
    cases (scan (members p)).2 with
    | closed e => cases negated p <;> rfl
    | cut => cases negated p <;> rfl
    | dash => rfl

/-- The bits of items without high bytes. -/
theorem mem_bits {items : List Item} (hf : ∀ i ∈ items, i.first.toNat < 128)
    (hl : ∀ i ∈ items, i.last.toNat < 128) (b : UInt8) :
    ((b.toNat : Nat) : Int) ∈ items.flatMap itemBits ↔
      ∃ i ∈ items, b = i.first ∨ i.denotes b = true := by
  rw [List.mem_flatMap]
  constructor
  · rintro ⟨i, hi, h⟩
    exact ⟨i, hi, (mem_itemBits (hf i hi) (hl i hi) b).1 h⟩
  · rintro ⟨i, hi, h⟩
    exact ⟨i, hi, (mem_itemBits (hf i hi) (hl i hi) b).2 h⟩

theorem denotes_ends {i : Item} (h : i.first ≤ i.last) :
    i.denotes i.first = true ∧ i.denotes i.last = true := by
  cases i with
  | one c => exact ⟨decide_eq_true rfl, decide_eq_true rfl⟩
  | range c e =>
    have hce : c ≤ e := h
    simp [Item.denotes, Item.first, Item.last, hce]

theorem BracketFine.right (hi : fl.icase = false) (hp : p.head? = some lbracket)
    (h : BracketFine fl p) : BracketRight fl p := by
  have hgood : ∀ b ∈ (scan (members p)).1.flatMap itemBits, Good b := by
    intro b hb
    obtain ⟨i, hmem, hbi⟩ := List.mem_flatMap.1 hb
    exact (itemBits_good i).2 (h.bits i hmem) b hbi
  obtain ⟨cc, hcc, hparse⟩ := parse_good hi hp hgood
  refine ⟨?_, fun cc' e hok x ofs l hx h0 => ?_⟩
  · rw [hparse setccChecked (.inr rfl)]
    cases hend : (scan (members p)).2 with
    | closed e => exact ⟨_, rfl⟩
    | cut => exact ⟨_, rfl⟩
    | dash => exact absurd hend h.inside
  · subst hx
    rw [← parsebracketedBy_setcc, hparse setcc (.inl rfl)] at hok
    rw [matchatom_bracket hi h0]
    generalize x.char ofs = b at h0 ⊢
    cases hend : (scan (members p)).2 with
    | cut => rw [hend] at hok; cases hok
    | dash => rw [hend] at hok; cases hok
    | closed e' =>
      rw [hend] at hok
      cases hok
      by_cases hn : b = newlineChar ∧ x.fl.newline = true
      · obtain ⟨rfl, hnl⟩ := hn
        rw [h.newline _ hend hnl]
        exact iff_of_false (fun h => h.1 ⟨rfl, hnl⟩) Bool.false_ne_true
      · have hsame : decide (((b.toNat : Nat) : Int) ∈ (scan (members p)).1.flatMap itemBits) =
            (scan (members p)).1.any (Item.denotes b) := by
          rw [Bool.eq_iff_iff, decide_eq_true_iff,
            mem_bits (fun j hj => (h.bits j hj).1) (h.high _ hend), List.any_eq_true]
          constructor
          · rintro ⟨i, hmem, rfl | hd⟩
            · by_cases hle : i.first ≤ i.last
              · exact ⟨i, hmem, (denotes_ends hle).1⟩
              · exact (h.falling _ hend i hmem (UInt8.not_le.1 hle)).resolve_left hn
            · exact ⟨i, hmem, hd⟩
          · rintro ⟨i, hmem, hd⟩
            exact ⟨i, hmem, .inr hd⟩
        rw [hcc, hsame]
        exact ⟨fun h => h.2, fun h => ⟨hn, h⟩⟩

/-- **When a bracket expression denotes its set.** -/
theorem bracket_right (hi : fl.icase = false) (hp : p.head? = some lbracket) :
    BracketRight fl p ↔ BracketFine fl p := by
  constructor
  · intro h
    obtain ⟨r, hr⟩ := h.safe
    have hgood : ∀ b ∈ (scan (members p)).1.flatMap itemBits, Good b := by
      intro b hb
      by_contra hbad
      have hlow : ∀ b ∈ (scan (members p)).1.flatMap itemBits, -128 ≤ b := by
        intro b hb
        obtain ⟨i, -, hbi⟩ := List.mem_flatMap.1 hb
        exact (itemBits_bounds hbi).1
      obtain ⟨e, he⟩ := fold_bad hlow ⟨b, hb, hbad⟩ clearcc
      rw [parsebracketedBy_eq _ hi hp, he] at hr
      cases hr
    have hbits : ∀ i ∈ (scan (members p)).1, i.first.toNat < 128 ∧ i.first.toNat % 32 ≠ 0 ∧
        (i.first.toNat ≤ i.last.toNat → i.last.toNat < 128 →
          i.first.toNat / 32 = i.last.toNat / 32) := fun i hmem =>
      (itemBits_good i).1 fun b hb => hgood b (List.mem_flatMap.2 ⟨i, hmem, hb⟩)
    obtain ⟨cc, hcc, hparse⟩ := parse_good hi hp hgood
    -- what the atom matches, if the expression is closed
    have hset {e : Ptr} (he : (scan (members p)).2 = .closed e) {b : UInt8} (hb : b ≠ 0) :
        ¬(b = newlineChar ∧ fl.newline = true) ∧ bitOf cc b.toNat = true ↔
          bracketSet p b = true := by
      have hok : parsebracketed fl p = .ok (some (cc, e)) := by
        rw [← parsebracketedBy_setcc, hparse setcc (.inl rfl), he]
      have hatom := h.set cc e hok ⟨[b], fl, false, false⟩ 0 (fun _ => none) rfl hb
      have hchar : Input.char ⟨[b], fl, false, false⟩ 0 ≠ 0 := hb
      exact (matchatom_bracket hi hchar).symm.trans hatom
    have hsame {e : Ptr} (he : (scan (members p)).2 = .closed e) {b : UInt8} (hb : b ≠ 0)
        (hn : ¬(b = newlineChar ∧ fl.newline = true)) :
        (((b.toNat : Nat) : Int) ∈ (scan (members p)).1.flatMap itemBits) ↔
          (scan (members p)).1.any (Item.denotes b) = true := by
      have h := hset he hb
      rw [hcc, bracketSet] at h
      rw [← decide_eq_true_iff (p := _ ∈ _)]
      cases hneg : negated p
      · simp only [hneg, Bool.xor_false] at h
        exact ⟨fun hc => h.1 ⟨hn, hc⟩, fun hd => (h.2 hd).2⟩
      · simp only [hneg, Bool.xor_true, Bool.not_eq_true'] at h
        rw [← not_iff_not, Bool.not_eq_true, Bool.not_eq_true]
        exact ⟨fun hc => h.1 ⟨hn, hc⟩, fun hd => (h.2 hd).2⟩
    have hhigh : ∀ e, (scan (members p)).2 = .closed e → ∀ i ∈ (scan (members p)).1,
        i.last.toNat < 128 := by
      intro e he i hmem
      by_contra hge
      have hfirst := (hbits i hmem).1
      have h0 : i.last ≠ 0 := fun h0 => hge (by rw [h0]; decide)
      have hn : ¬(i.last = newlineChar ∧ fl.newline = true) := fun hn => hge (by rw [hn.1]; decide)
      have hle : i.first ≤ i.last := by rw [UInt8.le_iff_toNat_le]; omega
      have hmem' := (hsame he h0 hn).2 (List.any_eq_true.2 ⟨i, hmem, (denotes_ends hle).2⟩)
      obtain ⟨j, -, hj⟩ := List.mem_flatMap.1 hmem'
      exact hge (itemBits_low hj)
    refine ⟨fun hdash => ?_, hbits, hhigh, fun e he i hmem hlt => ?_, fun e he hnl => ?_⟩
    · rw [hparse setccChecked (.inr rfl), hdash] at hr
      cases hr
    · by_cases hn : i.first = newlineChar ∧ fl.newline = true
      · exact .inl hn
      · have h0 : i.first ≠ 0 := fun h0 => (hbits i hmem).2.1 (by rw [h0]; rfl)
        have hin := (mem_bits (fun j hj => (hbits j hj).1) (hhigh e he) i.first).2
          ⟨i, hmem, .inl rfl⟩
        exact .inr (List.any_eq_true.1 ((hsame he h0 hn).1 hin))
    · have h10 := hset he (b := newlineChar) (by decide)
      by_contra hne
      exact (h10.2 (by simpa using hne)).1 ⟨rfl, hnl⟩
  · exact BracketFine.right hi hp

/-- `[a-c]` denotes its set. -/
theorem bracket_right_abc : BracketRight ⟨true, false, false, false⟩ [91, 97, 45, 99, 93] := by
  refine (bracket_right rfl rfl).2 ⟨by decide, by decide, fun e he => by decide,
    fun e he i hi hlt => ?_, fun e he hn => (by cases hn)⟩
  obtain rfl := List.mem_singleton.1 hi
  exact absurd hlt (by decide)

/-- The pattern `[a-` is read beyond its end. -/
theorem bracket_right_dash : ¬BracketRight ⟨true, false, false, false⟩ [91, 97, 45] := by
  rintro ⟨⟨r, hr⟩, -⟩
  have hend : (scan (members [91, 97, 45])).2 = .dash := rfl
  rw [parsebracketedBy_eq setccChecked rfl rfl, hend] at hr
  generalize (scan (members [91, 97, 45])).1.flatMap itemBits = bits at hr
  rcases hfold : bits.foldlM setccChecked clearcc with e | y
  · rw [hfold] at hr
    cases hr
  · rw [hfold] at hr
    cases hr

end Dietlibc.Rx
