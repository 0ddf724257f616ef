import Dietlibc.Rx.Match
import Dietlibc.Rx.NonNul

/-!
# The offsets of `matchpiece`

`matchpieceArray` is `matchpiece` with the array it allocates: an access is checked against the
`a->max` elements, and at the head of both loops it is checked that `matchlen` is the sum of the
offsets that count, that no `int` is passed, and that the text goes on to there. The matcher is given
with any function for pieces (`matchatomBy`).
-/

namespace Dietlibc.Rx

/-- A check that failed. The matcher has no fuel, so that the value is free for it. -/
abbrev breach : Stop := .fuel

/-! ## The matcher with any function for pieces -/

/-- Like `matchpiece`: the atom, `min`, `max` and `next`. -/
abbrev Piece := (Option Matcher → Matcher) → Nat → Nat → Option Matcher → Matcher

section

variable (piece : Piece) (x : Input)

mutual

/-- `matchatom` -/
def matchatomBy : Atom → Option Matcher → Matcher
  | .unset, _, _, _, _ => .error .fault
  | .bar, _, _, _, l => .ok (some 0, l)
  | .empty bnum, next, ofs, plus, l => do
    let l ← if bnum = none then .ok l else setMark bnum ofs ofs l
    goOn next 0 ofs plus l
  | .regex bnum r, next, ofs, plus, l => do
    match ← orEmpty r (matchbranchesBy r) ofs 0 l with
    | (some len, l) =>
      let l ← setMark bnum ofs (ofs + len) l
      goOn next len ofs plus l
    | (none, l) => return (none, l)
  | .backref n, next, ofs, plus, l =>
    match l n with
    | none => .error .fault
    | some (so, eo) =>
      let len := eo - so
      if (List.range len).all fun i => x.char (so + i) = x.char (ofs + i) then goOn next len ofs plus l
      else .ok (none, l)
  | a, next, ofs, plus, l =>
    match atomLength x ofs a with
    | some len => goOn next len ofs plus l
    | none => .ok (none, l)

/-- The `next` pointer of a piece. -/
def nextOfBy : Branch → Option Matcher
  | .nil => none
  | .cons a min max b =>
    if min = 1 ∧ max = 1 then some (matchatomBy a (nextOfBy b))
    else some (piece (matchatomBy a) min max (nextOfBy b))

/-- `matchbranch` -/
def matchbranchBy : Branch → Matcher
  | .nil, _, _, l => .ok (some 0, l)
  | .cons a min max b, ofs, plus, l => do
    match ← piece (matchatomBy a) min max (nextOfBy b) ofs plus l with
    | (some tmp, l) => return (some (plus + tmp), l)
    | (none, l) => return (none, l)

/-- The loop of `matchregex`. -/
def matchbranchesBy : Regex → Matcher
  | .nil, _, _, l => .ok (none, l)
  | .cons b r, ofs, plus, l => do
    match ← matchbranchBy b ofs plus l with
    | (some tmp, l) => return (some (plus + tmp), l)
    | (none, l) => matchbranchesBy r ofs plus l

end

/-- `matchregex` -/
def matchregexBy (r : Regex) : Matcher := orEmpty r (matchbranchesBy piece x r)

/-- The loop of `regexec`. -/
def execLoopBy (r : Regex) (earlyabort : Bool) :
    Nat → Nat → Bool → Marks → Except Stop (Option (Nat × Nat × Marks))
  | n, ofs, notbol, l => do
    match ← matchregexBy piece { x with notbol } r ofs 0 l with
    | (some _, l) =>
      match ← matchregexBy piece { x with notbol } r ofs 0 l with
      | (some matched, l) => return some (ofs, ofs + matched, l)
      | (none, l) => return some (ofs, ofs - 1, l)
    | (none, l) =>
      match n with
      | 0 => return none
      | n + 1 => if earlyabort then return none else execLoopBy r earlyabort n (ofs + 1) true l

/-- `regexec` -/
def regexecBy (r : Regex) (nmatch : Nat) : Except Stop (Option (List Entry)) := do
  let earlyabort ← if x.fl.newline then .ok false else allLineStart r
  match ← execLoopBy piece x r earlyabort x.text.length 0 x.notbol (fun _ => none) with
  | none => return none
  | some (so, eo, l) =>
    let l := Function.update l 0 (some (so, eo))
    return some <| (List.range nmatch).map fun i =>
      if x.fl.nosub then .minusOne
      else match l i with
        | none => .stray
        | some (so, eo) => .span so eo

end

/-! ## The array -/

/-- `offsets[k]` -/
def readOffset (max : Nat) (offsets : Nat → Nat) (k : Nat) : Except Stop Nat :=
  if k < max then .ok (offsets k) else .error breach

/-- `offsets[k]=tmp` -/
def writeOffset (max : Nat) (offsets : Nat → Nat) (k tmp : Nat) : Except Stop (Nat → Nat) :=
  if k < max then .ok (Function.update offsets k tmp) else .error breach

def check (p : Prop) [Decidable p] : Except Stop Unit := if p then .ok () else .error breach

/-- What is to hold at the head of the loops, in a text of so many characters from `ofs` on. -/
def Sound (size ofs num matchlen : Nat) (offsets : Nat → Nat) : Prop :=
  matchlen = ((List.range (num + 1)).map offsets).sum ∧ ofs + matchlen ≤ size ∧
    num < 2 ^ 31 ∧ matchlen < 2 ^ 31

instance (size ofs num matchlen : Nat) (offsets : Nat → Nat) :
    Decidable (Sound size ofs num matchlen offsets) := inferInstanceAs (Decidable (_ ∧ _))

section

variable (size : Nat)

/-- The first loop of `matchpiece`, with the number of turns that `num<a->max` leaves. -/
def fillOffsets (atom : Nat → Marks → Result) (ofs max : Nat) :
    Nat → Nat → Nat → (Nat → Nat) → Marks → Except Stop (Nat × Nat × (Nat → Nat) × Marks)
  | 0, num, matchlen, offsets, l => do
    check (Sound size ofs num matchlen offsets)
    return (num, matchlen, offsets, l)
  | n + 1, num, matchlen, offsets, l => do
    check (Sound size ofs num matchlen offsets)
    match ← atom matchlen l with
    | (some tmp, l) =>
      let offsets ← writeOffset max offsets (num + 1) tmp
      fillOffsets atom ofs max n (num + 1) (matchlen + tmp) offsets l
    | (none, l) => return (num, matchlen, offsets, l)

/-- The second loop of `matchpiece`, down to `num` at -1. -/
def unwind (rest : Nat → Marks → Result) (ofs max : Nat) (offsets : Nat → Nat) :
    Nat → Nat → Marks → Result
  | num, matchlen, l => do
    check (Sound size ofs num matchlen offsets)
    match ← rest matchlen l with
    | (some len, l) => return (some len, l)
    | (none, l) =>
      let tmp ← readOffset max offsets num
      check (tmp ≤ matchlen)
      match num with
      | 0 => return (none, l)
      | num + 1 => unwind rest ofs max offsets num (matchlen - tmp) l

/-- `matchpiece` -/
def matchpieceArray (atom : Option Matcher → Matcher) (min max : Nat) (next : Option Matcher) :
    Matcher :=
  fun ofs plus l => do
    let offsets ← writeOffset max (fun _ => 0) 0 0
    if max = 1 ∧ min = 1 then atom next ofs 0 l
    else
      let (num, matchlen, offsets, l) ←
        fillOffsets size (fun m l => atom none (ofs + m) 0 l) ofs max max 0 0 offsets l
      if num < min then return (none, l)
      unwind size (fun m l => goOn next m ofs plus l) ofs max offsets num matchlen l

end

/-! ## The condition -/

/-- Whether an atom matches so often in a row, from `matchlen` on, or further than an `int` counts. -/
def overruns (atom : Nat → Marks → Result) : Nat → Nat → Marks → Bool
  | 0, _, _ => true
  | n + 1, matchlen, l =>
    match atom matchlen l with
    | .ok (some tmp, l) => 2 ^ 31 ≤ matchlen + tmp || overruns atom n (matchlen + tmp) l
    | _ => false

/-- Either the atom is to match just once, or it does not match `max` times in a row, which is not 0,
nor as often or as far as an `int` cannot count. -/
def tame (atom : Option Matcher → Matcher) (min max ofs : Nat) (l : Marks) : Bool :=
  (max = 1 && min = 1) ||
    !overruns (fun m l => atom none (ofs + m) 0 l) (Nat.min max (2 ^ 31)) 0 l

/-- `matchpiece` where the condition holds. -/
def matchpieceTame (atom : Option Matcher → Matcher) (min max : Nat) (next : Option Matcher) :
    Matcher :=
  fun ofs plus l =>
    if tame atom min max ofs l then matchpiece atom min max next ofs plus l else .error breach

/-! ## Runs in step -/

/-- Two runs end alike, the second with a breach or as the third, and what comes out has `Q`. -/
def Step {α : Type} (Q : α → Prop) (a b c : Except Stop α) : Prop :=
  a = b ∧ (b = .error breach ∨ b = c) ∧ ∀ v, b = .ok v → Q v

section

variable {α β : Type} {Q : α → Prop} {R : β → Prop} {a b c : Except Stop α}

theorem Step.ok {v : α} (h : Q v) : Step Q (.ok v) (.ok v) (.ok v) :=
  ⟨rfl, .inr rfl, fun _ hv => by cases hv; exact h⟩

theorem Step.refl (h : ∀ v, a = .ok v → Q v) : Step Q a a a := ⟨rfl, .inr rfl, h⟩

theorem Step.error (e : Stop) : Step Q (.error e) (.error e) (.error e) :=
  ⟨rfl, .inr rfl, fun _ hv => by cases hv⟩

theorem Step.breach : Step Q (.error breach) (.error breach) c :=
  ⟨rfl, .inl rfl, fun _ hv => by cases hv⟩

theorem Step.imp {Q' : α → Prop} (h : Step Q a b c) (hQ : ∀ v, Q v → Q' v) : Step Q' a b c :=
  ⟨h.1, h.2.1, fun v hv => hQ v (h.2.2 v hv)⟩

theorem Step.bind {f g k : α → Except Stop β} (h : Step Q a b c)
    (hf : ∀ v, Q v → Step R (f v) (g v) (k v)) : Step R (a >>= f) (b >>= g) (c >>= k) := by
  obtain ⟨rfl, hc, hQ⟩ := h
  rcases a with e | v
  · refine ⟨rfl, ?_, fun w hw => by cases hw⟩
    rcases hc with hb | rfl
    · cases hb
      exact .inl rfl
    · exact .inr rfl
  · obtain rfl : (.ok v : Except Stop α) = c := hc.resolve_left fun hb => by cases hb
    exact hf v (hQ v rfl)

end

/-- The places of the groups are in the text. -/
def InText (size : Nat) (l : Marks) : Prop := ∀ n so eo, l n = some (so, eo) → so ≤ eo ∧ eo ≤ size

/-- What comes out of a match function from `ofs` on: its length does not lead out of the text. -/
def Bounded (size ofs plus : Nat) (v : Option Nat × Marks) : Prop :=
  InText size v.2 ∧ ∀ k ∈ v.1, ofs + (k - plus) ≤ size

/-- Match functions in step. -/
def Tied (size : Nat) (m m' m'' : Matcher) : Prop :=
  ∀ ofs plus l, ofs ≤ size → InText size l →
    Step (Bounded size ofs plus) (m ofs plus l) (m' ofs plus l) (m'' ofs plus l)

/-- The same for where they go on. -/
def TiedNext (size : Nat) : Option Matcher → Option Matcher → Option Matcher → Prop
  | none, none, none => True
  | some m, some m', some m'' => Tied size m m' m''
  | _, _, _ => False

section

variable {size ofs plus : Nat} {l : Marks}

theorem TiedNext.goOn {next next' next'' : Option Matcher} (h : TiedNext size next next' next'')
    {len : Nat} (hlen : ofs + len ≤ size) (hl : InText size l) :
    Step (Bounded size ofs plus) (goOn next len ofs plus l) (goOn next' len ofs plus l)
      (goOn next'' len ofs plus l) := by
  rcases next with - | m <;> rcases next' with - | m' <;> rcases next'' with - | m''
  · refine Step.ok ⟨hl, fun k hk => ?_⟩
    cases hk
    omega
  all_goals try exact h.elim
  refine (h (ofs + len) (plus + len) l hlen hl).imp fun v hv => ⟨hv.1, fun k hk => ?_⟩
  have := hv.2 k hk
  omega

/-! ## The loops -/

/-- The offsets that count, the last one first. -/
def Rep (offsets : Nat → Nat) : List Nat → Prop
  | [] => offsets 0 = 0
  | tmp :: os => offsets (os.length + 1) = tmp ∧ Rep offsets os

theorem Rep.last {offsets : Nat → Nat} {tmp : Nat} {os : List Nat} (h : Rep offsets (tmp :: os)) :
    offsets (tmp :: os).length = tmp := h.1

theorem Rep.sum {offsets : Nat → Nat} {os : List Nat} (h : Rep offsets os) :
    ((List.range (os.length + 1)).map offsets).sum = os.sum := by
  induction os with
  | nil =>
    have h0 : offsets 0 = 0 := h
    simp [h0]
  | cons tmp os ih =>
    rw [List.range_succ, List.map_append, List.sum_append, List.length_cons, ih h.2]
    simp only [List.map_cons, List.map_nil, List.sum_cons, List.sum_nil, h.1]
    omega

theorem Rep.update {offsets : Nat → Nat} {os : List Nat} (h : Rep offsets os) {k : Nat}
    (hk : os.length < k) (tmp : Nat) : Rep (Function.update offsets k tmp) os := by
  induction os with
  | nil =>
    have hk' : (0 : Nat) ≠ k := by
      rw [List.length_nil] at hk
      omega
    show Function.update offsets k tmp 0 = 0
    rw [Function.update_of_ne hk']
    exact h
  | cons t os ih =>
    rw [List.length_cons] at hk
    exact ⟨by rw [Function.update_of_ne (by omega)]; exact h.1, ih h.2 (by omega)⟩

theorem Rep.cons {offsets : Nat → Nat} {os : List Nat} (h : Rep offsets os) (tmp : Nat) :
    Rep (Function.update offsets (os.length + 1) tmp) (tmp :: os) :=
  ⟨Function.update_self .., h.update (Nat.lt_succ_self _) tmp⟩

theorem Rep.sound {offsets : Nat → Nat} {os : List Nat} (h : Rep offsets os)
    (hsum : ofs + os.sum ≤ size) (hnum : os.length < 2 ^ 31) (hint : os.sum < 2 ^ 31) :
    Sound size ofs os.length os.sum offsets :=
  ⟨h.sum.symm, hsum, hnum, hint⟩

theorem check_ok {p : Prop} [Decidable p] (h : p) : check p = .ok () := if_pos h

theorem fillOffsets_sound {atom : Nat → Marks → Result} {max n num matchlen : Nat}
    {offsets : Nat → Nat} (h : Sound size ofs num matchlen offsets) :
    fillOffsets size atom ofs max (n + 1) num matchlen offsets l = atom matchlen l >>= fun v =>
      match v with
      | (some tmp, l) => writeOffset max offsets (num + 1) tmp >>= fun offsets =>
          fillOffsets size atom ofs max n (num + 1) (matchlen + tmp) offsets l
      | (none, l) => .ok (num, matchlen, offsets, l) := by
  rw [fillOffsets, check_ok h]
  rfl

theorem fillOffsets_bad {atom : Nat → Marks → Result} {max n num matchlen : Nat}
    {offsets : Nat → Nat} (h : ¬Sound size ofs num matchlen offsets) :
    fillOffsets size atom ofs max n num matchlen offsets l = .error breach := by
  have hcheck : check (Sound size ofs num matchlen offsets) = .error breach := if_neg h
  cases n with
  | zero => rw [fillOffsets, hcheck]; rfl
  | succ n => rw [fillOffsets, hcheck]; rfl

/-- An atom in step with another one in the text, at the places behind `ofs`. -/
def AtomTied (size ofs : Nat) (atom atom' atom'' : Nat → Marks → Result) : Prop :=
  ∀ m l, ofs + m ≤ size → InText size l →
    Step (fun v => InText size v.2 ∧ ∀ k ∈ v.1, ofs + (m + k) ≤ size)
      (atom m l) (atom' m l) (atom'' m l)

/-- What the first loop leaves. -/
def Filled (size ofs : Nat) (v : List Nat × Nat × Marks) : Prop :=
  v.2.1 = v.1.sum ∧ ofs + v.2.1 ≤ size ∧ InText size v.2.2

/-- The first loop with the array: it breaks a check if the atom matches too often, and does what the
first loop does if not. -/
theorem fill_eq {atom atom' atom'' : Nat → Marks → Result} (hatom : AtomTied size ofs atom atom' atom'')
    {max : Nat} (k : Nat) {n : Nat} {os : List Nat} {offsets : Nat → Nat}
    (hn : n + os.length = max) (hk : k + os.length = Nat.min max (2 ^ 31)) (hpos : 0 < k)
    (hrep : Rep offsets os) (hsum : ofs + os.sum ≤ size) (hint : os.sum < 2 ^ 31)
    (hl : InText size l) :
    (overruns atom' k os.sum l = true →
      fillOffsets size atom ofs max n os.length os.sum offsets l = .error breach) ∧
    (overruns atom' k os.sum l = false →
      (∀ e, greedy atom' n os.sum os l = .error e →
        fillOffsets size atom ofs max n os.length os.sum offsets l = .error e) ∧
      ∀ os' m' l', greedy atom' n os.sum os l = .ok (os', m', l') → os'.length < Nat.min max (2 ^ 31) ∧
        os'.sum < 2 ^ 31 ∧ m' = os'.sum ∧ ofs + m' ≤ size ∧ InText size l' ∧
        ∃ offsets', Rep offsets' os' ∧
          fillOffsets size atom ofs max n os.length os.sum offsets l =
            .ok (os'.length, os'.sum, offsets', l')) := by
  induction k generalizing n os offsets l with
  | zero => exact absurd hpos (Nat.lt_irrefl 0)
  | succ k ih =>
    have hmin : Nat.min max (2 ^ 31) ≤ max ∧ Nat.min max (2 ^ 31) ≤ 2 ^ 31 :=
      ⟨Nat.min_le_left _ _, Nat.min_le_right _ _⟩
    have hmin' : Nat.min max (2 ^ 31) = max ∨ Nat.min max (2 ^ 31) = 2 ^ 31 := min_choice _ _
    obtain ⟨n, rfl⟩ : ∃ n', n = n' + 1 := ⟨n - 1, by omega⟩
    obtain ⟨heq, -, hbound⟩ := hatom os.sum l hsum hl
    have hfill : fillOffsets size atom ofs max (n + 1) os.length os.sum offsets l = _ :=
      fillOffsets_sound (hrep.sound hsum (by omega) hint)
    rw [heq] at hfill
    rcases hv : atom' os.sum l with e | ⟨- | tmp, l'⟩
    · rw [hfill, overruns, greedy, hv]
      exact ⟨fun h => (by cases h), fun _ => ⟨fun e' h => (by cases h; rfl),
        fun os' m' l' h => (by cases h)⟩⟩
    · obtain ⟨hl', -⟩ := hbound _ hv
      rw [hfill, overruns, greedy, hv]
      refine ⟨fun h => (by cases h), fun _ => ⟨fun e' h => (by cases h), fun os' m' l'' h => ?_⟩⟩
      cases h
      exact ⟨by omega, hint, rfl, hsum, hl', offsets, hrep, rfl⟩
    · obtain ⟨hl', htmp⟩ := hbound _ hv
      have hsum' : ofs + (tmp :: os).sum ≤ size := by
        have := htmp tmp rfl
        rw [List.sum_cons]
        omega
      have hcons : os.sum + tmp = (tmp :: os).sum := by rw [List.sum_cons]; omega
      have hrow : overruns atom' (k + 1) os.sum l =
          (decide (2 ^ 31 ≤ (tmp :: os).sum) || overruns atom' k (tmp :: os).sum l') := by
        rw [overruns, hv, ← hcons]
      have hgreedy : greedy atom' (n + 1) os.sum os l =
          greedy atom' n (tmp :: os).sum (tmp :: os) l' := by
        rw [greedy, hv, ← hcons]
        rfl
      rw [hv] at hfill
      have hfill : fillOffsets size atom ofs max (n + 1) os.length os.sum offsets l =
          writeOffset max offsets (os.length + 1) tmp >>= fun offsets =>
            fillOffsets size atom ofs max n (tmp :: os).length (tmp :: os).sum offsets l' := by
        rw [hfill, ← hcons]
        rfl
      rw [hrow, hgreedy, hfill]
      have hout (hbad : os.length + 1 = max ∨ 2 ^ 31 ≤ os.length + 1 ∨ 2 ^ 31 ≤ (tmp :: os).sum) :
          (writeOffset max offsets (os.length + 1) tmp >>= fun offsets =>
            fillOffsets size atom ofs max n (tmp :: os).length (tmp :: os).sum offsets l') =
              .error breach := by
        by_cases hlt : os.length + 1 < max
        · rw [writeOffset, if_pos hlt]
          apply fillOffsets_bad
          rintro ⟨-, -, hnum, hint⟩
          rw [List.length_cons] at hnum
          omega
        · rw [writeOffset, if_neg hlt]
          rfl
      by_cases hfar : 2 ^ 31 ≤ (tmp :: os).sum
      · rw [decide_eq_true hfar, Bool.true_or]
        exact ⟨fun _ => hout (.inr (.inr hfar)), fun h => (by cases h)⟩
      rw [decide_eq_false hfar, Bool.false_or]
      rcases Nat.eq_zero_or_pos k with rfl | hk'
      · -- as often as the array or an `int` allows
        exact ⟨fun _ => hout (by omega), fun h => (by cases h)⟩
      · have hn' : n + (tmp :: os).length = max := by rw [List.length_cons]; omega
        have hk'' : k + (tmp :: os).length = Nat.min max (2 ^ 31) := by rw [List.length_cons]; omega
        rw [writeOffset, if_pos (show os.length + 1 < max by omega)]
        exact ih hn' hk'' hk' (hrep.cons tmp) hsum' (by omega) hl'

/-- What the back-off calls, in step at the places behind `ofs`. -/
def RestTied (size ofs plus : Nat) (rest rest' rest'' : Nat → Marks → Result) : Prop :=
  ∀ m l, ofs + m ≤ size → InText size l →
    Step (Bounded size ofs plus) (rest m l) (rest' m l) (rest'' m l)

/-- The second loop with the array does what the second loop does. -/
theorem unwind_eq {rest rest' rest'' : Nat → Marks → Result}
    (hrest : RestTied size ofs plus rest rest' rest'') {max : Nat} {os : List Nat}
    {offsets : Nat → Nat} (hmax : os.length < max) (hnum : os.length < 2 ^ 31)
    (hint : os.sum < 2 ^ 31) (hrep : Rep offsets os) (hsum : ofs + os.sum ≤ size)
    (hl : InText size l) :
    unwind size rest ofs max offsets os.length os.sum l = backOff rest' os os.sum l := by
  induction os generalizing l with
  | nil =>
    obtain ⟨heq, -, -⟩ := hrest _ l hsum hl
    have h0 : readOffset max offsets ([] : List Nat).length = .ok 0 := by
      rw [readOffset, if_pos hmax]
      exact congrArg _ hrep
    rw [unwind, check_ok (hrep.sound hsum hnum hint), backOff, ← heq]
    rcases rest ([] : List Nat).sum l with e | ⟨- | len, l'⟩
    · rfl
    · show (readOffset max offsets ([] : List Nat).length >>= _) = _
      rw [h0]
      rfl
    · rfl
  | cons tmp os ih =>
    obtain ⟨heq, -, hbound⟩ := hrest _ l hsum hl
    have hread : readOffset max offsets (tmp :: os).length = .ok tmp := by
      rw [readOffset, if_pos hmax, hrep.last]
    have hle : tmp ≤ (tmp :: os).sum := by rw [List.sum_cons]; omega
    have hsub : (tmp :: os).sum - tmp = os.sum := by rw [List.sum_cons]; omega
    rw [unwind, check_ok (hrep.sound hsum hnum hint), backOff, heq]
    rcases hv : rest' (tmp :: os).sum l with e | ⟨- | len, l'⟩
    · rfl
    · show (readOffset max offsets (tmp :: os).length >>= _) = _
      rw [hread, hsub]
      show (check (tmp ≤ (tmp :: os).sum) >>= _) = _
      rw [check_ok hle]
      show unwind size rest ofs max offsets os.length ((tmp :: os).sum - tmp) l' = _
      rw [hsub]
      rw [List.length_cons] at hmax hnum
      rw [List.sum_cons] at hint hsum
      exact ih (by omega) (by omega) (by omega) hrep.2 (by omega) (hbound _ hv).1
    · rfl

theorem greedy_step {atom atom' atom'' : Nat → Marks → Result}
    (hatom : AtomTied size ofs atom atom' atom'') (n : Nat) {os : List Nat}
    (hsum : ofs + os.sum ≤ size) (hl : InText size l) :
    Step (fun v => ofs + v.2.1 ≤ size ∧ v.2.1 = v.1.sum ∧ InText size v.2.2)
      (greedy atom' n os.sum os l) (greedy atom' n os.sum os l) (greedy atom'' n os.sum os l) := by
  induction n generalizing os l with
  | zero => exact Step.ok ⟨hsum, rfl, hl⟩
  | succ n ih =>
    rw [greedy, greedy]
    obtain ⟨-, hstep⟩ := hatom os.sum l hsum hl
    refine Step.bind ⟨rfl, hstep⟩ fun v hv => ?_
    obtain ⟨- | tmp, l'⟩ := v
    · exact Step.ok ⟨hsum, rfl, hv.1⟩
    · have htmp := hv.2 tmp rfl
      have hcons : os.sum + tmp = (tmp :: os).sum := by rw [List.sum_cons]; omega
      show Step _ (greedy atom' n (os.sum + tmp) _ l') (greedy atom' n (os.sum + tmp) _ l')
        (greedy atom'' n (os.sum + tmp) _ l')
      rw [hcons]
      exact ih (by omega) hv.1

theorem backOff_step {rest rest' rest'' : Nat → Marks → Result}
    (hrest : RestTied size ofs plus rest rest' rest'') {os : List Nat}
    (hsum : ofs + os.sum ≤ size) (hl : InText size l) :
    Step (Bounded size ofs plus) (backOff rest' os os.sum l) (backOff rest' os os.sum l)
      (backOff rest'' os os.sum l) := by
  induction os generalizing l with
  | nil =>
    obtain ⟨-, hstep⟩ := hrest _ l hsum hl
    exact ⟨rfl, hstep⟩
  | cons tmp os ih =>
    rw [backOff, backOff]
    obtain ⟨-, hstep⟩ := hrest _ l hsum hl
    refine Step.bind ⟨rfl, hstep⟩ fun v hv => ?_
    obtain ⟨- | len, l'⟩ := v
    · have hsub : (tmp :: os).sum - tmp = os.sum := by rw [List.sum_cons]; omega
      show Step _ (backOff rest' os ((tmp :: os).sum - tmp) l')
        (backOff rest' os ((tmp :: os).sum - tmp) l') (backOff rest'' os ((tmp :: os).sum - tmp) l')
      rw [hsub]
      exact ih (by rw [List.sum_cons] at hsum; omega) hv.1
    · exact Step.ok hv

/-- A piece with the array, one where the condition holds, and `matchpiece`. -/
theorem matchpiece_tied {atom atom' atom'' : Option Matcher → Matcher}
    (hatom : ∀ next next' next'', TiedNext size next next' next'' →
      Tied size (atom next) (atom' next') (atom'' next''))
    (min max : Nat) {next next' next'' : Option Matcher} (hnext : TiedNext size next next' next'') :
    Tied size (matchpieceArray size atom min max next) (matchpieceTame atom' min max next')
      (matchpiece atom'' min max next'') := by
  intro ofs plus l hofs hl
  have hrow : AtomTied size ofs (fun m l => atom none (ofs + m) 0 l)
      (fun m l => atom' none (ofs + m) 0 l) (fun m l => atom'' none (ofs + m) 0 l) := by
    intro m l hm hl
    refine (hatom none none none trivial (ofs + m) 0 l hm hl).imp fun v hv => ⟨hv.1, fun k hk => ?_⟩
    have := hv.2 k hk
    omega
  have hrest : RestTied size ofs plus (fun m l => goOn next m ofs plus l)
      (fun m l => goOn next' m ofs plus l) (fun m l => goOn next'' m ofs plus l) :=
    fun m l hm hl => hnext.goOn hm hl
  unfold matchpieceTame
  by_cases h0 : max = 0
  · subst h0
    have htame : tame atom' min 0 ofs l = false := rfl
    rw [htame, if_neg Bool.false_ne_true]
    exact Step.breach
  have hwrite : writeOffset max (fun _ => 0) 0 0 = .ok fun _ => 0 := by
    rw [writeOffset, if_pos (by omega), Function.update_eq_self]
  have hrep : Rep (fun _ => 0) [] := rfl
  unfold matchpieceArray
  rw [hwrite]
  by_cases h1 : max = 1 ∧ min = 1
  · have htame : tame atom' min max ofs l = true := by simp [tame, h1]
    rw [htame, if_pos rfl, matchpiece, matchpiece, if_pos h1, if_pos h1]
    show Step _ (if max = 1 ∧ min = 1 then _ else _) _ _
    rw [if_pos h1]
    refine (hatom _ _ _ hnext ofs 0 l hofs hl).imp fun v hv => ⟨hv.1, fun k hk => ?_⟩
    have := hv.2 k hk
    omega
  · have htame : tame atom' min max ofs l =
        !overruns (fun m l => atom' none (ofs + m) 0 l) (Nat.min max (2 ^ 31)) 0 l := by
      unfold tame
      have h1' : (decide (max = 1) && decide (min = 1)) = false := by
        rw [← Bool.decide_and]
        exact decide_eq_false h1
      rw [h1', Bool.false_or]
    have hpos : 0 < Nat.min max (2 ^ 31) := Nat.lt_min.2 ⟨by omega, by decide⟩
    have hsum : ofs + ([] : List Nat).sum ≤ size := hofs
    have hturns : max + ([] : List Nat).length = max := rfl
    have hmany (k : Nat) : k + ([] : List Nat).length = k := rfl
    obtain ⟨hbad, hgood⟩ := fill_eq hrow (Nat.min max (2 ^ 31)) hturns (hmany _) hpos hrep hsum
      (by decide) hl
    show Step _ (if max = 1 ∧ min = 1 then _ else
      fillOffsets size (fun m l => atom none (ofs + m) 0 l) ofs max max 0 0 (fun _ => 0) l >>= _) _ _
    rw [if_neg h1, htame]
    cases hmany : overruns (fun m l => atom' none (ofs + m) 0 l) (Nat.min max (2 ^ 31)) 0 l with
    | true =>
      have hfill : fillOffsets size (fun m l => atom none (ofs + m) 0 l) ofs max max 0 0
          (fun _ => 0) l = .error breach := hbad hmany
      rw [hfill, Bool.not_true, if_neg Bool.false_ne_true]
      exact Step.breach
    | false =>
      obtain ⟨herr, hok⟩ := hgood hmany
      have hmodel : Step (Bounded size ofs plus) (matchpiece atom' min max next' ofs plus l)
          (matchpiece atom' min max next' ofs plus l) (matchpiece atom'' min max next'' ofs plus l) := by
        rw [matchpiece, matchpiece, if_neg h1, if_neg h1]
        refine (greedy_step hrow max hsum hl).bind fun v hv => ?_
        obtain ⟨os, m, l'⟩ := v
        dsimp only at hv
        obtain ⟨hm, rfl, hl'⟩ := hv
        by_cases hlt : os.length < min
        · show Step _ (if os.length < min then _ else _) (if os.length < min then _ else _)
            (if os.length < min then _ else _)
          rw [if_pos hlt, if_pos hlt]
          exact Step.ok ⟨hl', fun k hk => (by cases hk)⟩
        · show Step _ (if os.length < min then _ else _) (if os.length < min then _ else _)
            (if os.length < min then _ else _)
          rw [if_neg hlt, if_neg hlt]
          exact backOff_step hrest hm hl'
      rw [Bool.not_false, if_pos rfl]
      refine ⟨?_, hmodel.2⟩
      rw [matchpiece, if_neg h1]
      rcases hg : greedy (fun m l => atom' none (ofs + m) 0 l) max 0 [] l with e | ⟨os, m, l'⟩
      · have hfill : fillOffsets size (fun m l => atom none (ofs + m) 0 l) ofs max max 0 0
            (fun _ => 0) l = .error e := herr e hg
        rw [hfill]
        rfl
      · obtain ⟨hlen, hint, rfl, hm, hl', offsets, hrep', hfill⟩ := hok os m l' hg
        have hfill : fillOffsets size (fun m l => atom none (ofs + m) 0 l) ofs max max 0 0
            (fun _ => 0) l = .ok (os.length, os.sum, offsets, l') := hfill
        have hlt := Nat.lt_min.1 hlen
        rw [hfill]
        show (if os.length < min then _ else unwind size _ ofs max offsets os.length os.sum l') =
          if os.length < min then _ else backOff _ os os.sum l'
        rw [unwind_eq hrest hlt.1 hlt.2 hint hrep' hm hl']

end

/-! ## Atoms -/

section

variable {x : Input} {ofs : Nat}

theorem Input.lt_of_char (h : x.char ofs ≠ 0) : ofs < x.text.length := by
  by_contra hge
  apply h
  rw [Input.char, List.getD_eq_getElem?_getD, List.getElem?_eq_none (not_lt.1 hge)]
  rfl

theorem Input.char_of_fold (h : x.fold ofs ≠ 0) : x.char ofs ≠ 0 := by
  intro h0
  apply h
  rw [Input.fold, h0]
  split <;> rfl

/-- A character that is equal to one of the pattern is not the terminator. -/
theorem schar_ne {c b : UInt8} (hc : c ≠ 0) (h : (b.toNat : Int) = schar c) : b ≠ 0 := by
  rintro rfl
  have hlt := c.toNat_lt
  have hne : c.toNat ≠ 0 := fun h => hc (UInt8.toNat_inj.1 h)
  rw [schar_eq, UInt8.toNat_zero] at h
  split at h <;> omega

theorem matchString_bound {l : List UInt8} (hl : 0 ∉ l) (hofs : ofs ≤ x.text.length)
    (h : matchString x ofs l = true) : ofs + l.length ≤ x.text.length := by
  induction l generalizing ofs with
  | nil => exact hofs
  | cons c l ih =>
    rw [matchString, Bool.and_eq_true, decide_eq_true_eq] at h
    have hc : c ≠ 0 := fun h => hl (h ▸ List.mem_cons_self)
    have hlt := Input.lt_of_char (Input.char_of_fold (schar_ne hc h.1))
    have := ih (fun h => hl (List.mem_cons_of_mem c h)) hlt h.2
    rw [List.length_cons]
    omega

/-- The length of an atom does not lead out of the text. -/
theorem atomLength_bound {a : Atom} (ha : a.NonNul) (hofs : ofs ≤ x.text.length) {len : Nat}
    (h : atomLength x ofs a = some len) : ofs + len ≤ x.text.length := by
  have hone {p q : Prop} [Decidable p] [Decidable q] (hq : q → x.char ofs ≠ 0)
      (h : (if p then none else if q then some 1 else none) = some len) :
      ofs + len ≤ x.text.length := by
    by_cases hp : p
    · rw [if_pos hp] at h
      cases h
    · by_cases hq' : q
      · rw [if_neg hp, if_pos hq'] at h
        cases h
        exact Input.lt_of_char (hq hq')
      · rw [if_neg hp, if_neg hq'] at h
        cases h
  have hzero {p : Prop} [Decidable p] (h : (if p then some 0 else none) = some len) :
      ofs + len ≤ x.text.length := by
    by_cases hp : p
    · rw [if_pos hp] at h
      cases h
      exact hofs
    · rw [if_neg hp] at h
      cases h
  cases a with
  | bracket cc => exact hone (fun h => h.1) h
  | any => exact hone id h
  | lineStart => exact hzero h
  | lineEnd =>
    rw [atomLength] at h
    split at h
    · cases h
      exact hofs
    · split at h
      · cases h
      · cases h
        exact hofs
  | wordStart => exact hzero h
  | wordEnd => exact hzero h
  | char c =>
    rw [atomLength] at h
    split at h
    · rename_i heq
      cases h
      exact Input.lt_of_char (Input.char_of_fold (schar_ne ha heq))
    · cases h
  | string l =>
    rw [atomLength] at h
    split at h
    · rename_i heq
      cases h
      exact matchString_bound ha hofs heq
    · cases h
  | unset => cases h
  | bar => cases h
  | empty => cases h
  | regex => cases h
  | backref => cases h

theorem InText.setMark {size so eo : Nat} {l l' : Marks} (hl : InText size l) (hle : so ≤ eo)
    (heo : eo ≤ size) {bnum : Option Nat} (h : setMark bnum so eo l = .ok l') : InText size l' := by
  cases bnum with
  | none => cases h
  | some n =>
    cases h
    intro k so' eo' hk
    by_cases hkn : k = n
    · subst hkn
      rw [Function.update_self] at hk
      cases hk
      exact ⟨hle, heo⟩
    · rw [Function.update_of_ne hkn] at hk
      exact hl k so' eo' hk

/-- A group that is found again is in the text. -/
theorem backref_bound (h0 : 0 ∉ x.text) (hofs : ofs ≤ x.text.length) {so eo : Nat}
    (heo : so ≤ eo ∧ eo ≤ x.text.length)
    (h : ((List.range (eo - so)).all fun i => x.char (so + i) = x.char (ofs + i)) = true) :
    ofs + (eo - so) ≤ x.text.length := by
  by_contra hgt
  have hmem : x.text.length - ofs ∈ List.range (eo - so) := by
    rw [List.mem_range]
    omega
  have heq := List.all_eq_true.1 h _ hmem
  rw [decide_eq_true_eq] at heq
  have hend : x.char (ofs + (x.text.length - ofs)) = 0 := by
    by_contra hne
    have := Input.lt_of_char hne
    omega
  have hlt : so + (x.text.length - ofs) < x.text.length := by omega
  rw [hend, Input.char, List.getD_eq_getElem?_getD, List.getElem?_eq_getElem hlt,
    Option.getD_some] at heq
  exact h0 (heq ▸ List.getElem_mem hlt)

end

/-! ## The tree -/

/-- The matcher with the array. -/
abbrev arrayed (x : Input) : Piece := matchpieceArray x.text.length

section

variable {x : Input}

/-- An atom that does not use the array of the groups. -/
theorem plain_tied {a : Atom} (ha : a.NonNul)
    (hby : ∀ piece next ofs plus l, matchatomBy piece x a next ofs plus l =
      match atomLength x ofs a with
      | some len => goOn next len ofs plus l
      | none => .ok (none, l))
    (hmatch : ∀ next ofs plus l, matchatom x a next ofs plus l =
      match atomLength x ofs a with
      | some len => goOn next len ofs plus l
      | none => .ok (none, l))
    {next next' next'' : Option Matcher} (hnext : TiedNext x.text.length next next' next'') :
    Tied x.text.length (matchatomBy (arrayed x) x a next) (matchatomBy matchpieceTame x a next')
      (matchatom x a next'') := by
  intro ofs plus l hofs hl
  rw [hby, hby, hmatch]
  cases hlen : atomLength x ofs a with
  | none => exact Step.ok ⟨hl, fun k hk => by cases hk⟩
  | some len => exact hnext.goOn (atomLength_bound ha hofs hlen) hl

theorem Bounded.zero {size ofs len : Nat} {l : Marks} (h : Bounded size ofs 0 (some len, l)) :
    ofs + len ≤ size := h.2 len rfl

theorem orEmpty_tied {r : Regex} {m m' m'' : Matcher} {ofs : Nat} {l : Marks}
    (hofs : ofs ≤ x.text.length) (hl : InText x.text.length l)
    (h : Step (Bounded x.text.length ofs 0) (m ofs 0 l) (m' ofs 0 l) (m'' ofs 0 l)) :
    Step (Bounded x.text.length ofs 0) (orEmpty r m ofs 0 l) (orEmpty r m' ofs 0 l)
      (orEmpty r m'' ofs 0 l) := by
  cases r with
  | nil => exact Step.ok ⟨hl, fun k hk => by cases hk; omega⟩
  | cons b r => exact h

end

section

variable {x : Input}

mutual

/-- The atoms of a tree. -/
theorem matchatom_tied (h : 0 ∉ x.text) : ∀ {a : Atom}, a.NonNul → ∀ {next next' next'' : Option Matcher},
    TiedNext x.text.length next next' next'' →
      Tied x.text.length (matchatomBy (arrayed x) x a next) (matchatomBy matchpieceTame x a next')
        (matchatom x a next'')
  | .unset, _, _, _, _, _ => fun _ _ _ _ _ => Step.error _
  | .bar, _, _, _, _, _ => fun _ _ _ hofs hl => Step.ok ⟨hl, fun k hk => by cases hk; omega⟩
  | .empty bnum, _, _, _, _, hnext => fun ofs plus l hofs hl => by
    rw [matchatomBy, matchatomBy, matchatom]
    have hofs' : ofs + 0 ≤ x.text.length := hofs
    have hgo (l' : Marks) (hl' : InText x.text.length l') : Step (Bounded x.text.length ofs plus)
        _ _ _ := hnext.goOn hofs' hl'
    by_cases hb : bnum = none
    · rw [if_pos hb, if_pos hb, if_pos hb]
      exact hgo l hl
    · rw [if_neg hb, if_neg hb, if_neg hb]
      exact Step.bind (Q := InText x.text.length)
        (Step.refl fun l' hl' => hl.setMark (Nat.le_refl _) hofs hl') hgo
  | .regex bnum r, hr, _, _, _, hnext => fun ofs plus l hofs hl => by
    rw [matchatomBy, matchatomBy, matchatom]
    refine (orEmpty_tied hofs hl (matchbranches_tied h hr hofs hl)).bind fun v hv => ?_
    obtain ⟨- | len, l'⟩ := v
    · exact Step.ok ⟨hv.1, fun k hk => by cases hk⟩
    · have hlen := hv.zero
      exact Step.bind (Q := InText x.text.length)
        (Step.refl fun l'' hl'' => hv.1.setMark (Nat.le_add_right _ _) hlen hl'')
        fun l'' hl'' => hnext.goOn hlen hl''
  | .backref n, _, _, _, _, hnext => fun ofs plus l hofs hl => by
    rw [matchatomBy, matchatomBy, matchatom]
    cases hn : l n with
    | none => exact Step.error _
    | some place =>
      obtain ⟨so, eo⟩ := place
      dsimp only
      by_cases hall : ((List.range (eo - so)).all fun i => x.char (so + i) = x.char (ofs + i)) = true
      · rw [if_pos hall, if_pos hall, if_pos hall]
        exact hnext.goOn (backref_bound h hofs (hl n so eo hn) hall) hl
      · rw [if_neg hall, if_neg hall, if_neg hall]
        exact Step.ok ⟨hl, fun k hk => by cases hk⟩
  | .bracket _, ha, _, _, _, hnext => plain_tied ha (fun _ _ _ _ _ => rfl) (fun _ _ _ _ => rfl) hnext
  | .any, ha, _, _, _, hnext => plain_tied ha (fun _ _ _ _ _ => rfl) (fun _ _ _ _ => rfl) hnext
  | .lineStart, ha, _, _, _, hnext => plain_tied ha (fun _ _ _ _ _ => rfl) (fun _ _ _ _ => rfl) hnext
  | .lineEnd, ha, _, _, _, hnext => plain_tied ha (fun _ _ _ _ _ => rfl) (fun _ _ _ _ => rfl) hnext
  | .wordStart, ha, _, _, _, hnext => plain_tied ha (fun _ _ _ _ _ => rfl) (fun _ _ _ _ => rfl) hnext
  | .wordEnd, ha, _, _, _, hnext => plain_tied ha (fun _ _ _ _ _ => rfl) (fun _ _ _ _ => rfl) hnext
  | .char _, ha, _, _, _, hnext => plain_tied ha (fun _ _ _ _ _ => rfl) (fun _ _ _ _ => rfl) hnext
  | .string _, ha, _, _, _, hnext => plain_tied ha (fun _ _ _ _ _ => rfl) (fun _ _ _ _ => rfl) hnext

theorem nextOf_tied (h : 0 ∉ x.text) : ∀ {b : Branch}, b.NonNul →
    TiedNext x.text.length (nextOfBy (arrayed x) x b) (nextOfBy matchpieceTame x b) (nextOf x b)
  | .nil, _ => trivial
  | .cons a min max b, hb => by
    rw [nextOfBy, nextOfBy, nextOf]
    split
    · exact matchatom_tied h hb.1 (nextOf_tied h hb.2)
    · exact matchpiece_tied (fun _ _ _ hnext => matchatom_tied h hb.1 hnext) min max (nextOf_tied h hb.2)

theorem matchbranch_tied (h : 0 ∉ x.text) : ∀ {b : Branch}, b.NonNul → ∀ {ofs : Nat} {l : Marks},
    ofs ≤ x.text.length → InText x.text.length l →
      Step (Bounded x.text.length ofs 0) (matchbranchBy (arrayed x) x b ofs 0 l)
        (matchbranchBy matchpieceTame x b ofs 0 l) (matchbranch x b ofs 0 l)
  | .nil, _, _, _, hofs, hl => Step.ok ⟨hl, fun k hk => by cases hk; omega⟩
  | .cons a min max b, hb, ofs, l, hofs, hl => by
    rw [matchbranchBy, matchbranchBy, matchbranch]
    have hpiece := matchpiece_tied (fun _ _ _ hnext => matchatom_tied h hb.1 hnext) min max
      (nextOf_tied h hb.2)
    refine (hpiece ofs 0 l hofs hl).bind fun v hv => ?_
    obtain ⟨- | len, l'⟩ := v
    · exact Step.ok ⟨hv.1, fun k hk => by cases hk⟩
    · have hlen := hv.zero
      exact Step.ok ⟨hv.1, fun k hk => by cases hk; omega⟩

theorem matchbranches_tied (h : 0 ∉ x.text) : ∀ {r : Regex}, r.NonNul → ∀ {ofs : Nat} {l : Marks},
    ofs ≤ x.text.length → InText x.text.length l →
      Step (Bounded x.text.length ofs 0) (matchbranchesBy (arrayed x) x r ofs 0 l)
        (matchbranchesBy matchpieceTame x r ofs 0 l) (matchbranches x r ofs 0 l)
  | .nil, _, _, _, _, hl => Step.ok ⟨hl, fun k hk => by cases hk⟩
  | .cons b r, hr, ofs, l, hofs, hl => by
    rw [matchbranchesBy, matchbranchesBy, matchbranches]
    refine (matchbranch_tied h hr.1 hofs hl).bind fun v hv => ?_
    obtain ⟨- | len, l'⟩ := v
    · exact matchbranches_tied h hr.2 hofs hv.1
    · have hlen := hv.zero
      exact Step.ok ⟨hv.1, fun k hk => by cases hk; omega⟩

end

end

/-! ## `regexec` -/

section

variable {x : Input}

theorem matchregex_tied (h : 0 ∉ x.text) {r : Regex} (hr : r.NonNul) {ofs : Nat} {l : Marks}
    (hofs : ofs ≤ x.text.length) (hl : InText x.text.length l) :
    Step (Bounded x.text.length ofs 0) (matchregexBy (arrayed x) x r ofs 0 l)
      (matchregexBy matchpieceTame x r ofs 0 l) (matchregex x r ofs 0 l) :=
  orEmpty_tied hofs hl (matchbranches_tied h hr hofs hl)

theorem execLoop_tied (h : 0 ∉ x.text) {r : Regex} (hr : r.NonNul) (earlyabort : Bool) (n : Nat)
    {ofs : Nat} (notbol : Bool) {l : Marks} (hofs : ofs + n ≤ x.text.length)
    (hl : InText x.text.length l) :
    Step (fun _ => True) (execLoopBy (arrayed x) x r earlyabort n ofs notbol l)
      (execLoopBy matchpieceTame x r earlyabort n ofs notbol l)
      (execLoop x r earlyabort n ofs notbol l) := by
  have hrun {ofs : Nat} (notbol : Bool) {l : Marks} (hofs : ofs ≤ x.text.length)
      (hl : InText x.text.length l) := matchregex_tied (x := { x with notbol }) h
    hr hofs hl
  induction n generalizing ofs notbol l with
  | zero =>
    rw [execLoopBy, execLoopBy, execLoop]
    refine (hrun notbol (by omega) hl).bind fun v hv => ?_
    obtain ⟨- | len, l'⟩ := v
    · exact Step.ok trivial
    · refine (hrun notbol (by omega) hv.1).bind fun v _ => ?_
      obtain ⟨- | len, l'⟩ := v
      · exact Step.ok trivial
      · exact Step.ok trivial
  | succ n ih =>
    rw [execLoopBy, execLoopBy, execLoop]
    refine (hrun notbol (by omega) hl).bind fun v hv => ?_
    obtain ⟨- | len, l'⟩ := v
    · cases earlyabort
      · exact ih true (by omega) hv.1
      · exact Step.ok trivial
    · refine (hrun notbol (by omega) hv.1).bind fun v _ => ?_
      obtain ⟨- | len, l'⟩ := v
      · exact Step.ok trivial
      · exact Step.ok trivial

theorem regexec_tied (h : 0 ∉ x.text) {r : Regex} (hr : r.NonNul) (nmatch : Nat) :
    Step (fun _ => True) (regexecBy (arrayed x) x r nmatch) (regexecBy matchpieceTame x r nmatch)
      (regexec x r nmatch) := by
  unfold regexecBy regexec
  dsimp only
  split
  all_goals
    refine Step.bind (Q := fun _ => True) (Step.refl fun _ _ => trivial) fun earlyabort _ => ?_
    refine (execLoop_tied h hr earlyabort x.text.length x.notbol (by omega)
      fun n so eo hn => (by cases hn)).bind fun v _ => ?_
    exact Step.refl fun _ _ => trivial

end

/-- **Repetition and its offsets**: no check fails in a run exactly if the condition holds whenever
`matchpiece` is called. -/
theorem offsets_stay {fl : Cflags} {p t : Ptr} {r : Regex} {n : Nat} (hp : 0 ∉ p)
    (h : regcomp fl p = .ok (some (r, t, n))) {x : Input} (hx : 0 ∉ x.text) (nmatch : Nat) :
    (regexecBy (arrayed x) x r nmatch ≠ .error breach ↔
      regexecBy matchpieceTame x r nmatch ≠ .error breach) ∧
    (regexecBy (arrayed x) x r nmatch ≠ .error breach →
      regexecBy (arrayed x) x r nmatch = regexec x r nmatch) := by
  obtain ⟨heq, hmodel, -⟩ := regexec_tied hx (regcomp_nonNul hp h) nmatch
  rw [heq]
  exact ⟨Iff.rfl, fun hne => hmodel.resolve_left hne⟩

/-- `a*` stays in its array on `a`. -/
theorem offsets_stay_star : regexecBy (arrayed ⟨[97], ⟨true, false, false, false⟩, false, false⟩)
    ⟨[97], ⟨true, false, false, false⟩, false, false⟩ (.cons (.cons (.char 97) 0 8192 .nil) .nil) 1 ≠
      .error breach := by
  have hp : regcomp ⟨true, false, false, false⟩ [97, 42] =
      .ok (some (.cons (.cons (.char 97) 0 8192 .nil) .nil, [], 0)) := rfl
  have h := offsets_stay (x := ⟨[97], ⟨true, false, false, false⟩, false, false⟩) (by decide) hp
    (by decide) 1
  apply h.1.2
  intro hrun
  have hkeep : (regexecBy matchpieceTame ⟨[97], ⟨true, false, false, false⟩, false, false⟩
      (.cons (.cons (.char 97) 0 8192 .nil) .nil) 1).isOk = true := by decide +kernel
  rw [hrun] at hkeep
  cases hkeep

/-- `a?` writes behind its array on `a`. -/
theorem offsets_overrun : regcomp ⟨true, false, false, false⟩ [97, 63] =
      .ok (some (.cons (.cons (.char 97) 0 1 .nil) .nil, [], 0)) ∧
    regexecBy (arrayed ⟨[97], ⟨true, false, false, false⟩, false, false⟩)
      ⟨[97], ⟨true, false, false, false⟩, false, false⟩ (.cons (.cons (.char 97) 0 1 .nil) .nil) 1 =
        .error breach := ⟨rfl, by decide +kernel⟩

end Dietlibc.Rx
