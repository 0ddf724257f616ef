import Dietlibc.Rx.Language
import Dietlibc.Rx.Offsets

/-!
# What the matcher finds

The matcher does not heed the lower bound of a repetition when it backs off, and it does not come back
to a group whose first match the rest does not follow. `matchatomKept` is the matcher with checks of
what it gives up and of what it takes behind it (`Checks`), and a breach where one fails. A run without
a breach goes like that of the matcher; it finds words of the tree's language if the lower bounds are
checked (`matchregex_kept`), and misses none if what is given up had no other length.
-/

namespace Dietlibc.Rx

/-! ## The matcher with its choices checked -/

/-- What is checked: whether the rest may fail behind an atom that matched so many characters at a
place, and whether it may be taken behind the repetitions `left`, of which there were `all`. -/
structure Checks where
  mayFail : Atom → Nat → Nat → Bool
  mayTake : Atom → Nat → List Nat → List Nat → Bool

/-- A choice is given up. -/
def orBreach (may : Bool) : Result → Result
  | .ok (none, l) => if may then .ok (none, l) else .error breach
  | v => v

/-- Whether the rest may fail behind all lengths in a row. -/
def allMayFail (may : Nat → Nat → Bool) (ofs : Nat) : List Nat → Bool
  | [] => true
  | tmp :: offsets => may (ofs + offsets.sum) tmp && allMayFail may ofs offsets

/-- The second loop of `matchpiece`, with a breach if the rest matches where it may not. -/
def backOffKept (rest : Nat → Marks → Result) (may : List Nat → Bool) : List Nat → Nat → Marks → Result
  | [], matchlen, l => do
    match ← rest matchlen l with
    | (some len, l) => if may [] then return (some len, l) else .error breach
    | (none, l) => return (none, l)
  | tmp :: offsets, matchlen, l => do
    match ← rest matchlen l with
    | (some len, l) => if may (tmp :: offsets) then return (some len, l) else .error breach
    | (none, l) => backOffKept rest may offsets (matchlen - tmp) l

/-- `matchpiece` -/
def matchpieceKept (ch : Checks) (a : Atom) (atom : Option Matcher → Matcher) (min max : Nat)
    (next : Option Matcher) : Matcher :=
  fun ofs plus l =>
    if max = 1 ∧ min = 1 then atom next ofs 0 l
    else do
      let (offsets, matchlen, l) ← greedy (fun m l => atom none (ofs + m) 0 l) max 0 [] l
      orBreach (allMayFail (ch.mayFail a) ofs offsets) <|
        if offsets.length < min then .ok (none, l)
        else backOffKept (fun m l => goOn next m ofs plus l) (ch.mayTake a min offsets) offsets
          matchlen l

section

variable (ch : Checks) (x : Input)

mutual

/-- `matchatom` -/
def matchatomKept : Atom → Option Matcher → Matcher
  | .unset, _, _, _, _ => .error .fault
  | .bar, _, _, _, l => .ok (some 0, l)
  | .empty bnum, next, ofs, plus, l => do
    let l ← if bnum = none then .ok l else setMark bnum ofs ofs l
    orBreach (ch.mayFail (.empty bnum) ofs 0) (goOn next 0 ofs plus l)
  | .regex bnum r, next, ofs, plus, l => do
    match ← orEmpty r (matchbranchesKept r) ofs 0 l with
    | (some len, l) =>
      let l ← setMark bnum ofs (ofs + len) l
      orBreach (ch.mayFail (.regex bnum r) ofs len) (goOn next len ofs plus l)
    | (none, l) => return (none, l)
  | .backref n, next, ofs, plus, l =>
    match l n with
    | none => .error .fault
    | some (so, eo) =>
      let len := eo - so
      if (List.range len).all fun i => x.char (so + i) = x.char (ofs + i) then goOn next len ofs plus l
      else .ok (none, l)
  | a, next, ofs, plus, l =>
    match atomLength x ofs a with
    | some len => goOn next len ofs plus l
    | none => .ok (none, l)

/-- The `next` pointer of a piece. -/
def nextOfKept : Branch → Option Matcher
  | .nil => none
  | .cons a min max b =>
    if min = 1 ∧ max = 1 then some (matchatomKept a (nextOfKept b))
    else some (matchpieceKept ch a (matchatomKept a) min max (nextOfKept b))

/-- `matchbranch` -/
def matchbranchKept : Branch → Matcher
  | .nil, _, _, l => .ok (some 0, l)
  | .cons a min max b, ofs, plus, l => do
    match ← matchpieceKept ch a (matchatomKept a) min max (nextOfKept b) ofs plus l with
    | (some tmp, l) => return (some (plus + tmp), l)
    | (none, l) => return (none, l)

/-- The loop of `matchregex`. -/
def matchbranchesKept : Regex → Matcher
  | .nil, _, _, l => .ok (none, l)
  | .cons b r, ofs, plus, l => do
    match ← matchbranchKept b ofs plus l with
    | (some tmp, l) => return (some (plus + tmp), l)
    | (none, l) => matchbranchesKept r ofs plus l

end

/-- `matchregex` -/
def matchregexKept (r : Regex) : Matcher := orEmpty r (matchbranchesKept ch x r)

/-- The loop of `regexec`, with both runs of the matcher. -/
def execLoopKept (r : Regex) (earlyabort : Bool) :
    Nat → Nat → Bool → Marks → Except Stop (Option (Nat × Nat × Marks))
  | n, ofs, notbol, l => do
    match ← matchregexKept ch { x with notbol } r ofs 0 l with
    | (some _, l) =>
      match ← matchregexKept ch { x with notbol } r ofs 0 l with
      | (some matched, l) => return some (ofs, ofs + matched, l)
      | (none, l) => return some (ofs, ofs - 1, l)
    | (none, l) =>
      match n with
      | 0 => return none
      | n + 1 => if earlyabort then return none else execLoopKept r earlyabort n (ofs + 1) true l

end

/-! ## Words in the text -/

/-- So many characters from `ofs` on are a word of the language. -/
def Input.Word (x : Input) (L : Language UInt8) (ofs len : Nat) : Prop :=
  ofs + len ≤ x.text.length ∧ (x.text.drop ofs).take len ∈ L

section

variable {x : Input} {L K : Language UInt8} {ofs len len' m n k : Nat}

theorem Input.Word.mul (h : x.Word L ofs len) (h' : x.Word K (ofs + len) len') :
    x.Word (L * K) ofs (len + len') := by
  refine ⟨by have := h'.1; omega, ?_⟩
  rw [List.take_add, List.drop_drop]
  exact Language.append_mem_mul h.2 h'.2

theorem Input.Word.split (h : x.Word (L * K) ofs n) :
    ∃ len len', n = len + len' ∧ x.Word L ofs len ∧ x.Word K (ofs + len) len' := by
  obtain ⟨hn, hw⟩ := h
  obtain ⟨u, hu, v, hv, huv⟩ := Language.mem_mul.mp hw
  have hlen : u.length + v.length = n := by
    rw [← List.length_append, huv, List.length_take, List.length_drop]
    omega
  have hsplit : u ++ v = (x.text.drop ofs).take u.length ++
      (x.text.drop (ofs + u.length)).take v.length := by
    rw [huv, ← hlen, List.take_add, List.drop_drop]
  have hleft : ((x.text.drop ofs).take u.length).length = u.length := by
    rw [List.length_take, List.length_drop]
    omega
  obtain ⟨hu', hv'⟩ := List.append_inj hsplit hleft.symm
  exact ⟨u.length, v.length, hlen.symm, ⟨by omega, hu' ▸ hu⟩, ⟨by omega, hv' ▸ hv⟩⟩

theorem Input.word_one (hofs : ofs ≤ x.text.length) : x.Word 1 ofs len ↔ len = 0 := by
  constructor
  · rintro ⟨hlen, hw⟩
    have h0 := congrArg List.length ((Language.mem_one _).mp hw)
    rw [List.length_take, List.length_drop, List.length_nil] at h0
    omega
  · rintro rfl
    exact ⟨hofs, Language.nil_mem_one⟩

theorem Input.char_eq (h : ofs < x.text.length) : x.char ofs = x.text[ofs] := by
  rw [Input.char, List.getD_eq_getElem?_getD, List.getElem?_eq_getElem h, Option.getD_some]

theorem Input.take_one (h : ofs < x.text.length) : (x.text.drop ofs).take 1 = [x.char ofs] := by
  rw [Input.char_eq h, List.drop_eq_getElem_cons h]
  rfl

theorem Input.word_single {P : UInt8 → Prop} :
    x.Word (single P) ofs len ↔ len = 1 ∧ x.char ofs ≠ 0 ∧ P (x.char ofs) := by
  constructor
  · rintro ⟨hlen, b, hb, hb0, hP⟩
    have h1 := congrArg List.length hb
    rw [List.length_take, List.length_drop, List.length_singleton] at h1
    obtain rfl : len = 1 := by omega
    rw [Input.take_one (by omega)] at hb
    cases hb
    exact ⟨rfl, hb0, hP⟩
  · rintro ⟨rfl, h0, hP⟩
    have hlt := Input.lt_of_char h0
    exact ⟨hlt, x.char ofs, Input.take_one hlt, h0, hP⟩

theorem Input.word_literal {l : List UInt8} (h : x.Word {l} ofs len) :
    len = l.length ∧ (x.text.drop ofs).take l.length = l := by
  obtain ⟨hlen, hw⟩ := h
  have hl : (x.text.drop ofs).take len = l := hw
  have h1 := congrArg List.length hl
  rw [List.length_take, List.length_drop] at h1
  obtain rfl : len = l.length := by omega
  exact ⟨rfl, hl⟩

end

/-! ## Atoms that match characters -/

section

variable {x : Input} {c : UInt8} {l : List UInt8} {ofs len : Nat}

theorem Input.fold_eq (hi : x.fl.icase = false) (ofs : Nat) : x.fold ofs = x.char ofs := by
  rw [Input.fold, hi, if_neg Bool.false_ne_true]

/-- A literal is equal to a character in the lower half. -/
theorem Input.fold_schar (hi : x.fl.icase = false) :
    ((x.fold ofs).toNat : Int) = schar c ↔ x.char ofs = c ∧ c.toNat < 128 := by
  have hc := c.toNat_lt
  rw [Input.fold_eq hi, schar_eq, ← UInt8.toNat_inj]
  split <;> omega

theorem take_cons (hlt : ofs < x.text.length) (n : Nat) :
    (x.text.drop ofs).take (n + 1) = x.char ofs :: (x.text.drop (ofs + 1)).take n := by
  rw [List.drop_eq_getElem_cons hlt, List.take_succ_cons, Input.char_eq hlt]

theorem matchString_sound (hi : x.fl.icase = false) (hl : 0 ∉ l)
    (h : matchString x ofs l = true) : (x.text.drop ofs).take l.length = l := by
  induction l generalizing ofs with
  | nil => rfl
  | cons c l ih =>
    rw [matchString, Bool.and_eq_true, decide_eq_true_eq, Input.fold_schar hi] at h
    rw [List.mem_cons, not_or] at hl
    have hlt := Input.lt_of_char (show x.char ofs ≠ 0 by rw [h.1.1]; exact Ne.symm hl.1)
    rw [List.length_cons, take_cons hlt, ih hl.2 h.2, h.1.1]

theorem matchString_complete (hi : x.fl.icase = false) (hl : ∀ c ∈ l, c.toNat < 128 ∨ c ∉ x.text)
    (h : (x.text.drop ofs).take l.length = l) : matchString x ofs l = true := by
  induction l generalizing ofs with
  | nil => rfl
  | cons c l ih =>
    have hlt : ofs < x.text.length := by
      have hlen := congrArg List.length h
      rw [List.length_take, List.length_drop, List.length_cons] at hlen
      omega
    rw [List.length_cons, take_cons hlt] at h
    obtain ⟨hc, htail⟩ := List.cons.inj h
    have hmem : c ∈ x.text := by
      rw [← hc, Input.char_eq hlt]
      exact List.getElem_mem hlt
    have hlow := (hl c List.mem_cons_self).resolve_right fun hno => hno hmem
    rw [matchString, Bool.and_eq_true, decide_eq_true_eq, Input.fold_schar hi]
    exact ⟨⟨hc, hlow⟩, ih (fun d hd => hl d (List.mem_cons_of_mem c hd)) htail⟩

/-- Atoms that match characters. -/
def Atom.Chars : Atom → Prop
  | .bracket _ | .any | .char _ | .string _ => True
  | _ => False

variable {a : Atom} {P : UInt8 → Prop}

theorem atomLength_sound (hi : x.fl.icase = false) (hn : x.fl.newline = false) (hc : a.Chars)
    (ha : a.Plain P) (hofs : ofs ≤ x.text.length) (h : atomLength x ofs a = some len) :
    x.Word a.lang ofs len := by
  have hno : ¬(x.char ofs = newlineChar ∧ x.fl.newline = true) := by
    rw [hn]
    exact fun h => Bool.false_ne_true h.2
  cases a with
  | bracket cc =>
    rw [atomLength, if_neg hno, Input.fold_eq hi] at h
    split at h
    · next hset =>
      cases h
      exact Input.word_single.mpr ⟨rfl, hset⟩
    · cases h
  | any =>
    rw [atomLength, if_neg hno] at h
    split at h
    · next hset =>
      cases h
      exact Input.word_single.mpr ⟨rfl, hset, trivial⟩
    · cases h
  | char c =>
    rw [atomLength] at h
    split at h
    · next heq =>
      cases h
      obtain ⟨hchar, -⟩ := (Input.fold_schar hi).mp heq
      have hlt := Input.lt_of_char (show x.char ofs ≠ 0 by rw [hchar]; exact ha.1)
      exact ⟨hlt, by rw [Input.take_one hlt, hchar]; rfl⟩
    · cases h
  | string l =>
    rw [atomLength] at h
    split at h
    · next heq =>
      cases h
      exact ⟨matchString_bound ha.1 hofs heq, matchString_sound hi ha.1 heq⟩
    · cases h
  | _ => exact hc.elim

/-- Such an atom has no other length. -/
theorem atomLength_complete (hi : x.fl.icase = false) (hn : x.fl.newline = false) (hc : a.Chars)
    (ha : a.Plain fun c => c.toNat < 128 ∨ c ∉ x.text) (h : x.Word a.lang ofs len) :
    atomLength x ofs a = some len := by
  have hno : ¬(x.char ofs = newlineChar ∧ x.fl.newline = true) := by
    rw [hn]
    exact fun h => Bool.false_ne_true h.2
  cases a with
  | bracket cc =>
    obtain ⟨rfl, h0, hset⟩ := Input.word_single.mp h
    rw [atomLength, if_neg hno, Input.fold_eq hi, if_pos ⟨h0, hset⟩]
  | any =>
    obtain ⟨rfl, h0, -⟩ := Input.word_single.mp h
    rw [atomLength, if_neg hno, if_pos h0]
  | char c =>
    obtain ⟨rfl, hl⟩ := Input.word_literal h
    have hmatch := matchString_complete hi (l := [c]) (by simpa using ha.2) hl
    rw [matchString, matchString, Bool.and_true, decide_eq_true_eq] at hmatch
    rw [atomLength, if_pos hmatch]
    rfl
  | string l =>
    obtain ⟨rfl, hl⟩ := Input.word_literal h
    rw [atomLength, if_pos (matchString_complete hi ha.2 hl)]
  | _ => exact hc.elim

end

/-! ## Runs that are kept -/

/-- A run ends with a breach, or two runs end well and alike. -/
def Kept {α β : Type} (R : α → β → Prop) (a : Except Stop α) (b : Except Stop β) : Prop :=
  a = .error breach ∨ ∃ v w, a = .ok v ∧ b = .ok w ∧ R v w

section

variable {α β α' β' : Type} {R S : α → β → Prop} {T : α' → β' → Prop} {a : Except Stop α}
  {b : Except Stop β} {v : α} {w : β}

theorem Kept.ok (h : R v w) : Kept R (.ok v) (.ok w) := .inr ⟨v, w, rfl, rfl, h⟩

theorem Kept.imp (h : Kept R a b) (hS : ∀ v w, R v w → S v w) : Kept S a b :=
  h.imp_right fun ⟨v, w, ha, hb, hR⟩ => ⟨v, w, ha, hb, hS v w hR⟩

theorem Kept.bind {f : α → Except Stop α'} {g : β → Except Stop β'} (h : Kept R a b)
    (hf : ∀ v w, R v w → Kept T (f v) (g w)) : Kept T (a >>= f) (b >>= g) := by
  rcases h with rfl | ⟨v, w, rfl, rfl, hR⟩
  · exact .inl rfl
  · exact hf v w hR

end

/-- What a match function returns is the length of a word. Where `c` holds, nothing is missed. -/
structure Right (x : Input) (c : Prop) (L : Language UInt8) (ofs plus : Nat) (o : Option Nat) :
    Prop where
  sound : ∀ k ∈ o, ∃ len, k = plus + len ∧ x.Word L ofs len
  complete : c → o = none → ∀ len, ¬x.Word L ofs len

/-- Two runs return the same, and it is right. -/
def SameRight (x : Input) (c : Prop) (L : Language UInt8) (ofs plus : Nat)
    (v w : Option Nat × Marks) : Prop := v.1 = w.1 ∧ Right x c L ofs plus v.1

/-- A match function that is kept. -/
def KeptMatcher (x : Input) (c : Prop) (L : Language UInt8) (m m' : Matcher) : Prop :=
  ∀ ofs plus l l', ofs ≤ x.text.length →
    Kept (SameRight x c L ofs plus) (m ofs plus l) (m' ofs plus l')

/-- The same for where they go on. -/
def KeptNext (x : Input) (c : Prop) (L : Language UInt8) : Option Matcher → Option Matcher → Prop
  | none, none => L = 1
  | some m, some m' => KeptMatcher x c L m m'
  | _, _ => False

/-- Where the rest may fail behind an atom, the atom has no other length. -/
def Exact (x : Input) (ch : Checks) : Prop :=
  ∀ a ofs len, ch.mayFail a ofs len = true → ∀ len', x.Word a.lang ofs len' → len' = len

/-- The rest is taken behind enough repetitions only. -/
def Enough (ch : Checks) : Prop :=
  ∀ a min all left, ch.mayTake a min all left = true → min ≤ left.length

section

variable {x : Input} {c : Prop} {L K : Language UInt8} {ofs plus len : Nat} {l l' : Marks}
  {next next' : Option Matcher} {a b : Result} {may : Bool}

theorem SameRight.found (h : x.Word L ofs len) :
    SameRight x c L ofs plus (some (plus + len), l) (some (plus + len), l') :=
  ⟨rfl, fun k hk => ⟨len, by cases hk; rfl, h⟩, fun _ hno => by cases hno⟩

theorem SameRight.missed (h : c → ∀ len, ¬x.Word L ofs len) :
    SameRight x c L ofs plus (none, l) (none, l') :=
  ⟨rfl, fun k hk => (by cases hk), fun hc _ => h hc⟩

theorem KeptNext.goOn (h : KeptNext x c L next next') (len : Nat) (l l' : Marks)
    (hofs : ofs + len ≤ x.text.length) :
    Kept (SameRight x c L (ofs + len) (plus + len)) (goOn next len ofs plus l)
      (goOn next' len ofs plus l') := by
  rcases next with - | m <;> rcases next' with - | m'
  · obtain rfl : L = 1 := h
    have hnil : x.Word 1 (ofs + len) 0 := (Input.word_one hofs).mpr rfl
    exact .ok (.found hnil)
  · exact h.elim
  · exact h.elim
  · exact h (ofs + len) (plus + len) l l' hofs

/-- A word, and what comes behind it. -/
theorem Right.mul {o : Option Nat} (h : Right x c K (ofs + len) (plus + len) o)
    (hw : x.Word L ofs len) (honly : c → o = none → ∀ len', x.Word L ofs len' → len' = len) :
    Right x c (L * K) ofs plus o := by
  refine ⟨fun k hk => ?_, fun hc hnone n hn => ?_⟩
  · obtain ⟨len', rfl, hw'⟩ := h.sound k hk
    exact ⟨len + len', by omega, hw.mul hw'⟩
  · obtain ⟨u, v, rfl, hu, hv⟩ := hn.split
    obtain rfl := honly hc hnone u hu
    exact h.complete hc hnone v hv

/-- A check of the choices. -/
theorem Kept.orBreach {R S : Option Nat × Marks → Option Nat × Marks → Prop} (h : Kept R a b)
    (hS : ∀ v w, R v w → (v.1 = none → may = true) → S v w) : Kept S (orBreach may a) b := by
  rcases h with rfl | ⟨⟨- | k, l⟩, w, rfl, rfl, hR⟩
  · exact .inl rfl
  · cases may with
    | false => exact .inl rfl
    | true => exact .inr ⟨_, w, rfl, rfl, hS _ w hR fun _ => rfl⟩
  · exact .inr ⟨_, w, rfl, rfl, hS _ w hR fun h => by cases h⟩

end

/-! ## Pieces -/

section

variable {x : Input} {c : Prop} {L K : Language UInt8} {ofs plus min max n : Nat} {l l' : Marks}
  {os : List Nat} {may : Nat → Nat → Bool} {take : List Nat → Bool}

/-- The offsets that count are words in a row, the last one first. -/
def Row (x : Input) (L : Language UInt8) (ofs : Nat) (os : List Nat) : Prop :=
  ∀ tmp os', tmp :: os' <:+ os → x.Word L (ofs + os'.sum) tmp

theorem Row.cons {tmp : Nat} (h : Row x L ofs os) (hw : x.Word L (ofs + os.sum) tmp) :
    Row x L ofs (tmp :: os) := by
  intro t os' hsuf
  rcases List.suffix_cons_iff.mp hsuf with heq | hsuf
  · cases heq
    exact hw
  · exact h t os' hsuf

theorem Row.word (h : Row x L ofs os) (hofs : ofs ≤ x.text.length) :
    x.Word (L ^ os.length) ofs os.sum := by
  induction os with
  | nil => exact ⟨hofs, Language.nil_mem_one⟩
  | cons tmp os ih =>
    have hrow := ih fun t os' hsuf => h t os' (List.suffix_cons_iff.mpr (.inr hsuf))
    rw [List.length_cons, pow_succ, List.sum_cons, Nat.add_comm]
    exact hrow.mul (h tmp os List.suffix_rfl)

/-- What the first loop leaves: a row, as long as the bound or up to where nothing matches. -/
structure Reached (x : Input) (c : Prop) (L : Language UInt8) (ofs max : Nat) (os : List Nat) :
    Prop where
  row : Row x L ofs os
  inside : ofs + os.sum ≤ x.text.length
  bound : os.length ≤ max
  stop : c → os.length < max → ∀ len, ¬x.Word L (ofs + os.sum) len

theorem greedy_kept {atom atom' : Nat → Marks → Result}
    (hatom : ∀ m l l', ofs + m ≤ x.text.length →
      Kept (SameRight x c L (ofs + m) 0) (atom m l) (atom' m l'))
    (hn : n + os.length = max) (hrow : Row x L ofs os) (hin : ofs + os.sum ≤ x.text.length) :
    Kept (fun v w => v.1 = w.1 ∧ v.2.1 = v.1.sum ∧ w.2.1 = v.1.sum ∧ Reached x c L ofs max v.1)
      (greedy atom n os.sum os l) (greedy atom' n os.sum os l') := by
  induction n generalizing os l l' with
  | zero =>
    have heq : os.length = max := by omega
    exact .ok ⟨rfl, rfl, rfl, hrow, hin, heq.le, fun _ hlt => absurd heq hlt.ne⟩
  | succ n ih =>
    rw [greedy, greedy]
    refine (hatom os.sum l l' hin).bind fun v w hvw => ?_
    obtain ⟨o, l1⟩ := v
    obtain ⟨o', l1'⟩ := w
    obtain ⟨heq, hright⟩ := hvw
    obtain rfl : o = o' := heq
    cases o with
    | none =>
      have hle : os.length ≤ max := by omega
      exact .ok ⟨rfl, rfl, rfl, hrow, hin, hle, fun hc _ => hright.complete hc rfl⟩
    | some tmp =>
      obtain ⟨len, hlen, hw⟩ := hright.sound tmp rfl
      obtain rfl : tmp = len := by omega
      have hsum : os.sum + tmp = (tmp :: os).sum := by rw [List.sum_cons]; omega
      show Kept _ (greedy atom n (os.sum + tmp) (tmp :: os) l1)
        (greedy atom' n (os.sum + tmp) (tmp :: os) l1')
      rw [hsum]
      have hbound := hw.1
      exact ih (by rw [List.length_cons]; omega) (hrow.cons hw) (by omega)

/-- A repetition with bounds. -/
abbrev bounded (min max : Nat) (L : Language UInt8) : Language UInt8 :=
  repeated (fun k => min ≤ k ∧ k ≤ max) L

theorem backOff_kept {rest rest' : Nat → Marks → Result}
    (hrest : ∀ m l l', ofs + m ≤ x.text.length →
      Kept (SameRight x c K (ofs + m) (plus + m)) (rest m l) (rest' m l'))
    (htake : ∀ left, take left = true → min ≤ left.length) (hrow : Row x L ofs os)
    (hin : ofs + os.sum ≤ x.text.length) (hmax : os.length ≤ max) :
    Kept (fun v w => v.1 = w.1 ∧
        (∀ k ∈ v.1, ∃ len, k = plus + len ∧ x.Word (bounded min max L * K) ofs len) ∧
        (c → v.1 = none → ∀ os', os' <:+ os → ∀ len, ¬x.Word K (ofs + os'.sum) len))
      (backOffKept rest take os os.sum l) (backOff rest' os os.sum l') := by
  -- where the rest matches behind enough of the row
  have hfound {os : List Nat} {k : Nat} (hrow : Row x L ofs os) (hin : ofs + os.sum ≤ x.text.length)
      (hmin : min ≤ os.length) (hmax : os.length ≤ max)
      (hright : Right x c K (ofs + os.sum) (plus + os.sum) (some k)) :
      ∃ len, k = plus + len ∧ x.Word (bounded min max L * K) ofs len := by
    obtain ⟨len, hlen, hw⟩ := hright.sound k rfl
    have hword := hrow.word (by omega)
    exact ⟨os.sum + len, by omega,
      Input.Word.mul (L := bounded min max L) ⟨hword.1, os.length, ⟨hmin, hmax⟩, hword.2⟩ hw⟩
  induction os generalizing l l' with
  | nil =>
    rw [backOffKept, backOff]
    rcases hrest _ l l' hin with hb | ⟨⟨o, l1⟩, ⟨o', l1'⟩, hv, hw, heq, hright⟩
    · rw [hb]
      exact .inl rfl
    obtain rfl : o = o' := heq
    rw [hv, hw]
    cases o with
    | none =>
      refine .ok ⟨rfl, fun k hk => (by cases hk), fun hc _ os' hsuf len => ?_⟩
      rw [List.suffix_nil.mp hsuf]
      exact hright.complete hc rfl len
    | some k =>
      show Kept _ (if take [] = true then .ok (some k, l1) else .error breach) _
      by_cases hmin : take [] = true
      · rw [if_pos hmin]
        refine .ok ⟨rfl, fun k' hk' => ?_, fun _ hno => by cases hno⟩
        cases hk'
        exact hfound hrow hin (htake _ hmin) hmax hright
      · rw [if_neg hmin]
        exact .inl rfl
  | cons tmp os ih =>
    rw [backOffKept, backOff]
    refine (hrest _ l l' hin).bind fun v w hvw => ?_
    obtain ⟨o, l1⟩ := v
    obtain ⟨o', l1'⟩ := w
    obtain ⟨heq, hright⟩ := hvw
    obtain rfl : o = o' := heq
    cases o with
    | none =>
      have hsub : (tmp :: os).sum - tmp = os.sum := by rw [List.sum_cons]; omega
      have hrow' : Row x L ofs os := fun t os' hsuf =>
        hrow t os' (List.suffix_cons_iff.mpr (.inr hsuf))
      show Kept _ (backOffKept rest take os ((tmp :: os).sum - tmp) l1)
        (backOff rest' os ((tmp :: os).sum - tmp) l1')
      rw [hsub]
      rw [List.sum_cons] at hin
      rw [List.length_cons] at hmax
      refine (ih hrow' (by omega) (by omega)).imp fun v w hvw => ?_
      refine ⟨hvw.1, hvw.2.1, fun hc hnone os' hsuf len => ?_⟩
      rcases List.suffix_cons_iff.mp hsuf with rfl | hsuf
      · exact hright.complete hc rfl len
      · exact hvw.2.2 hc hnone os' hsuf len
    | some k =>
      show Kept _ (if take (tmp :: os) = true then .ok (some k, l1) else .error breach) _
      by_cases hmin : take (tmp :: os) = true
      · rw [if_pos hmin]
        refine .ok ⟨rfl, fun k' hk' => ?_, fun _ hno => by cases hno⟩
        cases hk'
        exact hfound hrow hin (htake _ hmin) hmax hright
      · rw [if_neg hmin]
        exact .inl rfl

theorem allMayFail_iff : allMayFail may ofs os = true ↔
    ∀ tmp os', tmp :: os' <:+ os → may (ofs + os'.sum) tmp = true := by
  induction os with
  | nil =>
    refine ⟨fun _ tmp os' hsuf => ?_, fun _ => rfl⟩
    cases List.suffix_nil.mp hsuf
  | cons t os ih =>
    rw [allMayFail, Bool.and_eq_true, ih]
    constructor
    · rintro ⟨ht, hall⟩ tmp os' hsuf
      rcases List.suffix_cons_iff.mp hsuf with heq | hsuf
      · cases heq
        exact ht
      · exact hall tmp os' hsuf
    · intro h
      exact ⟨h t os List.suffix_rfl,
        fun tmp os' hsuf => h tmp os' (List.suffix_cons_iff.mpr (.inr hsuf))⟩

/-- Where each length is the only one, other words in a row are the same. -/
theorem Reached.unique (h : Reached x c L ofs max os) (hc : c)
    (halone : ∀ tmp os', tmp :: os' <:+ os → ∀ len, x.Word L (ofs + os'.sum) len → len = tmp)
    {k u : Nat} (hk : k ≤ max) (hu : x.Word (L ^ k) ofs u) :
    ∃ os', os' <:+ os ∧ os'.length = k ∧ os'.sum = u := by
  induction k generalizing u with
  | zero =>
    have hofs : ofs ≤ x.text.length := by have := h.inside; omega
    exact ⟨[], List.nil_suffix, rfl, ((Input.word_one hofs).mp hu).symm⟩
  | succ k ih =>
    rw [pow_succ] at hu
    obtain ⟨u, v, rfl, hu, hv⟩ := hu.split
    obtain ⟨os', ⟨pre, hpre⟩, hlen, rfl⟩ := ih (by omega) hu
    rcases List.eq_nil_or_concat pre with rfl | ⟨pre, tmp, rfl⟩
    · -- the row has ended
      obtain rfl : os' = os := hpre
      exact absurd hv (h.stop hc (by omega) v)
    · have hsuf : tmp :: os' <:+ os := ⟨pre, by rw [← hpre]; simp⟩
      obtain rfl := halone tmp os' hsuf v hv
      exact ⟨v :: os', hsuf, by rw [List.length_cons, hlen], by rw [List.sum_cons, Nat.add_comm]⟩

/-- A piece that is not plain. -/
theorem matchpiece_kept {ch : Checks} {a : Atom} {atom atom' : Option Matcher → Matcher}
    {next next' : Option Matcher} (htake : Enough ch)
    (hatom : KeptMatcher x c L (atom none) (atom' none)) (hnext : KeptNext x c K next next')
    (honly : c → ∀ ofs len, ch.mayFail a ofs len = true → ∀ len', x.Word L ofs len' → len' = len)
    (h1 : ¬(max = 1 ∧ min = 1)) :
    KeptMatcher x c (bounded min max L * K) (matchpieceKept ch a atom min max next)
      (matchpiece atom' min max next') := by
  intro ofs plus l l' hofs
  rw [matchpieceKept, matchpiece, if_neg h1, if_neg h1]
  have hrow : Row x L ofs [] := fun tmp os' hsuf => by cases List.suffix_nil.mp hsuf
  have hturns : max + ([] : List Nat).length = max := rfl
  refine (greedy_kept (fun m l l' hm => hatom (ofs + m) 0 l l' hm) hturns hrow hofs).bind
    fun v w hvw => ?_
  obtain ⟨os, m, l1⟩ := v
  obtain ⟨os', m', l1'⟩ := w
  obtain ⟨heq, hm, hm', hreach⟩ := hvw
  dsimp only at heq hm hm' hreach
  subst heq hm hm'
  -- what the rest does behind the row decides
  have hmiss (hc : c) (halone : allMayFail (ch.mayFail a) ofs os = true)
      (hrest : min ≤ os.length → ∀ os', os' <:+ os → ∀ len, ¬x.Word K (ofs + os'.sum) len) :
      ∀ n, ¬x.Word (bounded min max L * K) ofs n := by
    intro n hn
    obtain ⟨u, v, rfl, ⟨hin, k, ⟨hmin, hmax⟩, hu⟩, hv⟩ := hn.split
    obtain ⟨os', hsuf, rfl, rfl⟩ := hreach.unique hc
      (fun tmp os' hsuf => honly hc _ tmp (allMayFail_iff.mp halone tmp os' hsuf)) hmax ⟨hin, hu⟩
    have := hsuf.length_le
    exact hrest (by omega) os' hsuf v hv
  show Kept _ (orBreach _ (if os.length < min then _ else _)) (if os.length < min then _ else _)
  by_cases hlt : os.length < min
  · rw [if_pos hlt, if_pos hlt]
    refine (Kept.ok (R := fun v w => v.1 = none ∧ w.1 = none) ⟨rfl, rfl⟩).orBreach
      fun v w hvw hal => ?_
    refine ⟨hvw.1.trans hvw.2.symm, fun k hk => ?_, fun hc _ => hmiss hc (hal hvw.1) (by omega)⟩
    rw [hvw.1] at hk
    cases hk
  · rw [if_neg hlt, if_neg hlt]
    refine (backOff_kept (fun m l l' hm => hnext.goOn m l l' hm) (htake a min os) hreach.row
      hreach.inside hreach.bound).orBreach fun v w hvw hal => ?_
    exact ⟨hvw.1, hvw.2.1, fun hc hnone => hmiss hc (hal hnone) fun _ => hvw.2.2 hc hnone⟩

end

/-! ## The tree -/

section

variable {x : Input} {ch : Checks} {c : Prop} {K : Language UInt8}
  {next next' : Option Matcher} {a : Atom} {ofs plus : Nat} {l l' : Marks} {r : Regex}

/-- The literals that the matcher can find in the text, if nothing is to be missed. -/
abbrev Findable (x : Input) (c : Prop) (b : UInt8) : Prop := c → b.toNat < 128 ∨ b ∉ x.text

theorem Atom.Plain.chars {P Q : UInt8 → Prop} (h : a.Plain P) (hc : a.Chars) (hPQ : ∀ b, P b → Q b) :
    a.Plain Q := by
  cases a with
  | char b => exact ⟨h.1, hPQ b h.2⟩
  | string l => exact ⟨h.1, fun b hb => hPQ b (h.2 b hb)⟩
  | bracket | any => trivial
  | _ => exact hc.elim

/-- An atom that matches characters. -/
theorem chars_kept (hi : x.fl.icase = false) (hn : x.fl.newline = false) (hc : a.Chars)
    (ha : a.Plain (Findable x c))
    (hkept : ∀ next ofs plus l, matchatomKept ch x a next ofs plus l =
      match atomLength x ofs a with
      | some len => goOn next len ofs plus l
      | none => .ok (none, l))
    (hmatch : ∀ next ofs plus l, matchatom x a next ofs plus l =
      match atomLength x ofs a with
      | some len => goOn next len ofs plus l
      | none => .ok (none, l))
    (hnext : KeptNext x c K next next') :
    KeptMatcher x c (a.lang * K) (matchatomKept ch x a next) (matchatom x a next') := by
  intro ofs plus l l' hofs
  have hfound (hc' : c) {len : Nat} (hw : x.Word a.lang ofs len) : atomLength x ofs a = some len :=
    atomLength_complete hi hn hc (ha.chars hc fun _ hb => hb hc') hw
  rw [hkept, hmatch]
  cases hlen : atomLength x ofs a with
  | none =>
    refine .ok (.missed fun hc' n hw => ?_)
    obtain ⟨u, v, -, hu, -⟩ := hw.split
    rw [hfound hc' hu] at hlen
    cases hlen
  | some len =>
    have hw := atomLength_sound hi hn hc ha hofs hlen
    refine (hnext.goOn len l l' hw.1).imp fun v w hvw => ⟨hvw.1, hvw.2.mul hw fun hc' _ len' hw' => ?_⟩
    rw [hfound hc' hw'] at hlen
    exact Option.some.inj hlen

theorem orEmpty_cons {m : Matcher} (hr : r ≠ .nil) : orEmpty r m = m := by
  cases r with
  | nil => exact absurd rfl hr
  | cons b r => rfl

theorem setMark_some {bnum : Option Nat} (hb : bnum ≠ none) (so eo : Nat) (l : Marks) :
    ∃ l', setMark bnum so eo l = .ok l' := by
  cases bnum with
  | none => exact absurd rfl hb
  | some n => exact ⟨_, rfl⟩

theorem bounded_one (L : Language UInt8) : bounded 1 1 L = L := by
  have heq : (fun k => 1 ≤ k ∧ k ≤ 1) = fun k => k = 1 := by
    funext k
    exact propext ⟨fun h => le_antisymm h.2 h.1, fun h => ⟨h.ge, h.le⟩⟩
  rw [bounded, heq, repeated_one]

mutual

/-- The atoms of a tree. -/
theorem matchatom_kept (hi : x.fl.icase = false) (hn : x.fl.newline = false)
    (htake : Enough ch) (hexact : c → Exact x ch) : ∀ {a : Atom}, a.Plain (Findable x c) →
      ∀ {K : Language UInt8} {next next' : Option Matcher}, KeptNext x c K next next' →
        KeptMatcher x c (a.lang * K) (matchatomKept ch x a next) (matchatom x a next')
  | .unset, ha, _, _, _, _ => ha.elim
  | .bar, ha, _, _, _, _ => ha.elim
  | .lineStart, ha, _, _, _, _ => ha.elim
  | .lineEnd, ha, _, _, _, _ => ha.elim
  | .wordStart, ha, _, _, _, _ => ha.elim
  | .wordEnd, ha, _, _, _, _ => ha.elim
  | .backref _, ha, _, _, _, _ => ha.elim
  | .empty bnum, ha, _, _, _, hnext => fun ofs plus l l' hofs => by
    rw [matchatomKept, matchatom, if_neg ha, if_neg ha]
    obtain ⟨l1, h1⟩ := setMark_some ha ofs ofs l
    obtain ⟨l1', h1'⟩ := setMark_some ha ofs ofs l'
    rw [h1, h1']
    have hone {len : Nat} : x.Word 1 ofs len ↔ len = 0 := Input.word_one hofs
    refine (hnext.goOn 0 l1 l1' hofs).orBreach fun v w hvw _ => ⟨hvw.1, hvw.2.mul (hone.mpr rfl) ?_⟩
    exact fun _ _ len' hw' => hone.mp hw'
  | .regex bnum r, ha, _, _, _, hnext => fun ofs plus l l' hofs => by
    obtain ⟨hb, hr, hplain⟩ : bnum ≠ none ∧ r ≠ .nil ∧ r.Plain (Findable x c) := ha
    rw [matchatomKept, matchatom, orEmpty_cons hr, orEmpty_cons hr]
    refine (matchbranches_kept hi hn htake hexact hplain l l' hofs).bind fun v w hvw => ?_
    obtain ⟨o, l1⟩ := v
    obtain ⟨o', l1'⟩ := w
    obtain ⟨heq, hright⟩ := hvw
    obtain rfl : o = o' := heq
    cases o with
    | none =>
      refine .ok (.missed fun hc n hw => ?_)
      obtain ⟨u, v, -, hu, -⟩ := hw.split
      exact hright.complete hc rfl u hu
    | some len =>
      obtain ⟨len', hlen, hw⟩ := hright.sound len rfl
      obtain rfl : len = len' := by omega
      obtain ⟨l2, h2⟩ := setMark_some hb ofs (ofs + len) l1
      obtain ⟨l2', h2'⟩ := setMark_some hb ofs (ofs + len) l1'
      show Kept _ (setMark bnum ofs (ofs + len) l1 >>= _) (setMark bnum ofs (ofs + len) l1' >>= _)
      rw [h2, h2']
      refine (hnext.goOn len l2 l2' hw.1).orBreach fun v w hvw hal => ⟨hvw.1, hvw.2.mul hw ?_⟩
      exact fun hc hnone => hexact hc (.regex bnum r) ofs len (hal hnone)
  | .bracket _, ha, _, _, _, hnext =>
    chars_kept hi hn trivial ha (fun _ _ _ _ => rfl) (fun _ _ _ _ => rfl) hnext
  | .any, ha, _, _, _, hnext =>
    chars_kept hi hn trivial ha (fun _ _ _ _ => rfl) (fun _ _ _ _ => rfl) hnext
  | .char _, ha, _, _, _, hnext =>
    chars_kept hi hn trivial ha (fun _ _ _ _ => rfl) (fun _ _ _ _ => rfl) hnext
  | .string _, ha, _, _, _, hnext =>
    chars_kept hi hn trivial ha (fun _ _ _ _ => rfl) (fun _ _ _ _ => rfl) hnext

theorem nextOf_kept (hi : x.fl.icase = false) (hn : x.fl.newline = false)
    (htake : Enough ch) (hexact : c → Exact x ch) : ∀ {b : Branch}, b.Plain (Findable x c) →
      KeptNext x c b.lang (nextOfKept ch x b) (nextOf x b)
  | .nil, _ => rfl
  | .cons a min max b, hb => by
    rw [nextOfKept, nextOf]
    split
    · next h1 =>
      obtain ⟨rfl, rfl⟩ := h1
      have h := matchatom_kept hi hn htake hexact hb.1 (nextOf_kept hi hn htake hexact hb.2)
      rw [← bounded_one a.lang] at h
      exact h
    · next h1 =>
      have hatom := matchatom_kept hi hn htake hexact hb.1 (show KeptNext x c 1 none none from rfl)
      rw [mul_one] at hatom
      exact matchpiece_kept htake hatom (nextOf_kept hi hn htake hexact hb.2) (fun hc => hexact hc a)
        fun h => h1 h.symm

theorem matchbranch_kept (hi : x.fl.icase = false) (hn : x.fl.newline = false)
    (htake : Enough ch) (hexact : c → Exact x ch) : ∀ {b : Branch}, b.Plain (Findable x c) →
      ∀ {ofs : Nat} (l l' : Marks), ofs ≤ x.text.length →
        Kept (SameRight x c b.lang ofs 0) (matchbranchKept ch x b ofs 0 l)
          (matchbranch x b ofs 0 l')
  | .nil, _, ofs, _, _, hofs =>
    have hnil : x.Word 1 ofs 0 := (Input.word_one hofs).mpr rfl
    .ok (.found hnil)
  | .cons a min max b, hb, ofs, l, l', hofs => by
    rw [matchbranchKept, matchbranch]
    have hpiece : Kept (SameRight x c (Branch.cons a min max b).lang ofs 0)
        (matchpieceKept ch a (matchatomKept ch x a) min max (nextOfKept ch x b) ofs 0 l)
        (matchpiece (matchatom x a) min max (nextOf x b) ofs 0 l') := by
      by_cases h1 : max = 1 ∧ min = 1
      · obtain ⟨rfl, rfl⟩ := h1
        have h := matchatom_kept hi hn htake hexact hb.1 (nextOf_kept hi hn htake hexact hb.2)
          ofs 0 l l' hofs
        rw [← bounded_one a.lang] at h
        rw [matchpieceKept, matchpiece, if_pos ⟨rfl, rfl⟩, if_pos ⟨rfl, rfl⟩]
        exact h
      · have hatom := matchatom_kept hi hn htake hexact hb.1 (show KeptNext x c 1 none none from rfl)
        rw [mul_one] at hatom
        exact matchpiece_kept htake hatom (nextOf_kept hi hn htake hexact hb.2)
          (fun hc => hexact hc a) h1 ofs 0 l l' hofs
    refine hpiece.bind fun v w hvw => ?_
    obtain ⟨o, l1⟩ := v
    obtain ⟨o', l1'⟩ := w
    obtain ⟨heq, hright⟩ := hvw
    obtain rfl : o = o' := heq
    cases o with
    | none => exact .ok ⟨rfl, hright⟩
    | some k =>
      show Kept _ (.ok (some (0 + k), l1)) (.ok (some (0 + k), l1'))
      rw [Nat.zero_add]
      exact .ok ⟨rfl, hright⟩

theorem matchbranches_kept (hi : x.fl.icase = false) (hn : x.fl.newline = false)
    (htake : Enough ch) (hexact : c → Exact x ch) : ∀ {r : Regex}, r.Plain (Findable x c) →
      ∀ {ofs : Nat} (l l' : Marks), ofs ≤ x.text.length →
        Kept (SameRight x c r.lang ofs 0) (matchbranchesKept ch x r ofs 0 l)
          (matchbranches x r ofs 0 l')
  | .nil, _, _, _, _, _ => .ok (.missed fun _ _ hw => hw.2)
  | .cons b r, hr, ofs, l, l', hofs => by
    rw [matchbranchesKept, matchbranches]
    refine (matchbranch_kept hi hn htake hexact hr.2.1 l l' hofs).bind fun v w hvw => ?_
    obtain ⟨o, l1⟩ := v
    obtain ⟨o', l1'⟩ := w
    obtain ⟨heq, hright⟩ := hvw
    obtain rfl : o = o' := heq
    cases o with
    | none =>
      refine (matchbranches_kept hi hn htake hexact hr.2.2 l1 l1' hofs).imp
        fun v w hvw => ⟨hvw.1, ?_, ?_⟩
      · intro k hk
        obtain ⟨len, hlen, hw⟩ := hvw.2.sound k hk
        exact ⟨len, hlen, hw.1, .inr hw.2⟩
      · rintro hc hnone n ⟨hn, hw | hw⟩
        · exact hright.complete hc rfl n ⟨hn, hw⟩
        · exact hvw.2.complete hc hnone n ⟨hn, hw⟩
    | some k =>
      obtain ⟨len, hlen, hw⟩ := hright.sound k rfl
      show Kept _ (.ok (some (0 + k), l1)) (.ok (some (0 + k), l1'))
      rw [hlen, ← Nat.add_assoc]
      exact .ok (.found ⟨hw.1, .inl hw.2⟩)

end

/-- The matcher of a tree. -/
theorem matchregex_kept (hi : x.fl.icase = false) (hn : x.fl.newline = false)
    (htake : Enough ch) (hexact : c → Exact x ch) (hr : r ≠ .nil)
    (hplain : r.Plain (Findable x c)) (l l' : Marks)
    (hofs : ofs ≤ x.text.length) :
    Kept (SameRight x c r.lang ofs 0) (matchregexKept ch x r ofs 0 l)
      (matchregex x r ofs 0 l') := by
  rw [matchregexKept, matchregex, orEmpty_cons hr, orEmpty_cons hr]
  exact matchbranches_kept hi hn htake hexact hplain l l' hofs

end

end Dietlibc.Rx
