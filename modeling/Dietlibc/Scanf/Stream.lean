import Dietlibc.Scanf.Directives

/-!
# Where `scanf` leaves the stream

The code reads one character ahead. `At` says that the lookahead is the first character of what the
directives have left; every directive keeps it. At the end the lookahead has to go back to the stream:
`leavesStream_iff` says when it does.
-/

namespace Dietlibc.Scanf

open Shell (isspace isdigit dash lbracket)

/-- The claim: there is no undefined behaviour, and a result that is not `EOF` leaves the stream behind
what the directives matched, and only characters were given back. -/
def LeavesStream (format input : List UInt8) : Prop :=
  vScanf format input ≠ .error .fault ∧
    ∀ e, vScanf format input = .ok e → e.ret ≠ eof →
      none ∉ e.given ∧ e.given.reduceOption ++ e.rest = (scan format input 0 0).left

/-- When it holds: the end is at a character or nothing was stored, and a number fails at the end of the
input only. -/
def Restores (format input : List UInt8) : Prop :=
  match (scan format input 0 0).why with
  | .ended => (scan format input 0 0).left ≠ [] ∨ (scan format input 0 0).n = 0
  | .number => (scan format input 0 0).left = []
  | .percent | .fault => False
  | .float => True

/-! ## The lookahead -/

/-- The lookahead is the first character of `l`, in front of which there are `c`. -/
structure At (s : St) (l : List UInt8) (c n : Nat) : Prop where
  tpch : s.tpch = l.head?
  rest : s.rest = l.tail
  consumed : s.consumed = (c + 1) % 2 ^ 32
  stored : s.n = n

variable {s : St} {l left format : List UInt8} {x ch : UInt8} {c n k b v : Nat} {i : Int}
  {f : Flags} {p : UInt8 → Bool}

theorem At.getc (h : At s (x :: l) c n) : At s.getc l (c + 1) n := by
  refine ⟨congrArg List.head? h.rest, congrArg List.tail h.rest, ?_, h.stored⟩
  change (s.consumed + 1) % 2 ^ 32 = _
  rw [h.consumed]
  omega

theorem At.fuel (h : At s l c n) : l.length ≤ s.rest.length + 1 := by
  rw [h.rest, List.length_tail]
  omega

/-- The lookahead is behind a prefix of `l`. -/
def Moved (s : St) (l left : List UInt8) (c n : Nat) : Prop :=
  left.length ≤ l.length ∧ At s left (c + (l.length - left.length)) n

theorem At.moved (h : At s l c n) : Moved s l l c n := by
  refine ⟨le_rfl, ?_⟩
  rwa [Nat.sub_self]

theorem Moved.cons (h : Moved s l left (c + 1) n) : Moved s (x :: l) left c n := by
  obtain ⟨hle, hat⟩ := h
  refine ⟨hle.trans (Nat.le_succ _), ?_⟩
  rwa [List.length_cons, show c + (l.length + 1 - left.length) = c + 1 + (l.length - left.length) by
    omega]

theorem Moved.trans {mid : List UInt8} {s' : St} (h : Moved s l mid c n)
    (h' : Moved s' mid left (c + (l.length - mid.length)) n) : Moved s' l left c n := by
  obtain ⟨hle, -⟩ := h
  obtain ⟨hle', hat⟩ := h'
  refine ⟨hle'.trans hle, ?_⟩
  rwa [show c + (l.length - left.length) =
    c + (l.length - mid.length) + (mid.length - left.length) by omega]

/-! ## Loops -/

theorem behind_nil : behind p i [] = [] := by
  unfold behind
  simp

theorem behind_cons : behind p i (x :: l) =
    if i = 0 ∨ p x = false then x :: l else behind p (i - 1) l := by
  have hstop (h : i = 0 ∨ p x = false) :
      (if i = 0 ∨ p x = false then x :: l else behind p (i - 1) l) = x :: l := if_pos h
  have hgo (h0 : i ≠ 0) (hp : p x = true) :
      (if i = 0 ∨ p x = false then x :: l else behind p (i - 1) l) =
        behind p (i - 1) l := by
    rw [if_neg]
    rintro (h | h)
    · exact h0 h
    · rw [hp] at h
      cases h
  by_cases h0 : i = 0
  · rw [hstop (.inl h0), behind, h0]
    rfl
  by_cases hp : p x = true
  · rw [hgo h0 hp, behind, behind]
    by_cases hneg : i < 0
    · rw [if_pos hneg, if_pos (show i - 1 < 0 by omega), List.takeWhile_cons_of_pos hp]
      rfl
    · obtain ⟨w, rfl⟩ : ∃ w : Nat, i = (w + 1 : Nat) := ⟨(i - 1).toNat, by omega⟩
      rw [if_neg hneg, if_neg (show ¬ ((w + 1 : Nat) : Int) - 1 < 0 by omega), Int.toNat_natCast,
        List.take_succ_cons, List.takeWhile_cons_of_pos hp,
        show (((w + 1 : Nat) : Int) - 1).toNat = w by omega]
      rfl
  · rw [hstop (.inr (by simpa using hp)), behind]
    split
    · rw [List.takeWhile_cons_of_neg hp]
      rfl
    · obtain ⟨w, hw⟩ : ∃ w : Nat, i.toNat = w + 1 := ⟨i.toNat - 1, by omega⟩
      rw [hw, List.take_succ_cons, List.takeWhile_cons_of_neg hp]
      rfl

theorem whileGetc_moved (h : At s l c n) (hk : l.length ≤ k) :
    Moved (whileGetc p k s) l (l.dropWhile p) c n := by
  induction k generalizing s l c with
  | zero =>
    obtain rfl := List.length_eq_zero_iff.mp (by omega : l.length = 0)
    exact h.moved
  | succ k ih =>
    rcases l with - | ⟨x, l⟩
    · rw [whileGetc, h.tpch]
      exact h.moved
    · rw [whileGetc, h.tpch]
      by_cases hp : p x = true
      · rw [if_pos (by simpa using hp), List.dropWhile_cons_of_pos hp]
        exact (ih h.getc (by simpa using hk)).cons
      · rw [if_neg (by simpa using hp), List.dropWhile_cons_of_neg hp]
        exact h.moved

theorem skipSpace_moved (h : At s l c n) : Moved (skipSpace s) l (l.dropWhile isspace) c n :=
  whileGetc_moved h h.fuel

theorem digitLoop_moved (h : At s l c n) (hk : l.length ≤ k) :
    Moved (digitLoop b k i v s).2 l (behind (fun c => digit c < b) i l) c n := by
  induction k generalizing s l c i v with
  | zero =>
    obtain rfl := List.length_eq_zero_iff.mp (by omega : l.length = 0)
    rw [behind_nil]
    exact h.moved
  | succ k ih =>
    rcases l with - | ⟨x, l⟩
    · simp only [digitLoop, h.tpch, List.head?_nil]
      rw [behind_nil]
      exact h.moved
    · simp only [digitLoop, h.tpch, List.head?_cons]
      rw [behind_cons]
      have hiff : (i = 0 ∨ b ≤ digit x) ↔ (i = 0 ∨ decide (digit x < b) = false) := by
        rw [decide_eq_false_iff_not, not_lt]
      by_cases hstop : i = 0 ∨ b ≤ digit x
      · rw [if_pos hstop, if_pos (hiff.mp hstop)]
        exact h.moved
      · rw [if_neg hstop, if_neg (hiff.not.mp hstop)]
        exact (ih h.getc (by simpa using hk)).cons

/-- The loops over text keep the lookahead, and have as many characters as they passed. -/
theorem textLoop_moved {z : Bool} {t : List UInt8} (h : At s l c n) (hk : l.length ≤ k) :
    Moved (textLoop p z k i t s).2 l
        (behind (fun c => p c && !(z && decide (c = 0))) i l) c n ∧
      (textLoop p z k i t s).1.length = t.length +
        (l.length - (behind (fun c => p c && !(z && decide (c = 0))) i l).length) := by
  induction k generalizing s l c i t with
  | zero =>
    obtain rfl := List.length_eq_zero_iff.mp (by omega : l.length = 0)
    rw [behind_nil]
    exact ⟨h.moved, rfl⟩
  | succ k ih =>
    rcases l with - | ⟨x, l⟩
    · simp only [textLoop, h.tpch, List.head?_nil]
      rw [behind_nil]
      exact ⟨h.moved, rfl⟩
    · simp only [textLoop, h.tpch, List.head?_cons]
      rw [behind_cons]
      have hiff : (i = 0 ∨ p x = false ∨ (z = true ∧ x = 0)) ↔
          (i = 0 ∨ (p x && !(z && decide (x = 0))) = false) := by
        rw [Bool.and_eq_false_iff, Bool.not_eq_false', Bool.and_eq_true, decide_eq_true_eq]
      by_cases hstop : i = 0 ∨ p x = false ∨ (z = true ∧ x = 0)
      · rw [if_pos hstop, if_pos (hiff.mp hstop)]
        exact ⟨h.moved, by rw [Nat.sub_self]; rfl⟩
      · rw [if_neg hstop, if_neg (hiff.not.mp hstop)]
        obtain ⟨hmoved, hlen⟩ := ih (i := i - 1) (t := t ++ [x]) h.getc (by simpa using hk)
        refine ⟨hmoved.cons, ?_⟩
        rw [hlen, List.length_append, List.length_cons, List.length_cons, List.length_nil]
        have := hmoved.1
        omega

/-! ## Conversions -/

/-- How the function is left, with the lookahead at `left`. -/
def Exits (why : Why) (left : List UInt8) (n : Nat) (e : Except Stop Exit) : Prop :=
  match why with
  | .ended => ∃ s c, At s left c n ∧ e = .ok (errOut s)
  | .number => ∃ s c, At s left c n ∧ e = .ok (leave s.n s)
  | .percent => left ≠ [] ∧ ∃ s c, At s left c n ∧ e = .ok (leave 0 s)
  | .float => e = .error .float
  | .fault => e = .error .fault

/-- The code does what the directive does on the plain input. -/
def Follows (step : Step) (l : List UInt8) (c n : Nat) (r : Except Stop Next) : Prop :=
  match step with
  | .go format left k => ∃ s, r = .ok (.go format s) ∧ Moved s l left c (n + k)
  | .stop left why => ∃ e : Except Stop Exit, Exits why left n e ∧ r = e.map .stop

theorem At.with_n {s' : St} (h : At s l c n) (ht : s'.tpch = s.tpch) (hr : s'.rest = s.rest)
    (hc : s'.consumed = s.consumed) (hn : s'.n = k) : At s' l c k :=
  ⟨ht.trans h.tpch, hr.trans h.rest, hc.trans h.consumed, hn⟩

theorem pass_moved (ch : UInt8) (h : At s l c n) :
    Moved (if s.tpch = some ch then s.getc else s) l (pass ch l) c n := by
  unfold pass
  rw [h.tpch]
  by_cases hc : l.head? = some ch
  · rw [if_pos hc, if_pos hc]
    obtain ⟨t, rfl⟩ := List.head?_eq_some_iff.mp hc
    exact h.getc.moved.cons
  · rw [if_neg hc, if_neg hc]
    exact h.moved

theorem scanSign_moved (h : At s l c n) :
    Moved (scanSign s).2 l (pass plus (pass dash l)) c n := by
  have heq : (scanSign s).2 =
      if (if s.tpch = some dash then s.getc else s).tpch = some plus then
        (if s.tpch = some dash then s.getc else s).getc
      else if s.tpch = some dash then s.getc else s := by
    unfold scanSign
    by_cases hd : s.tpch = some dash
    · simp only [if_pos hd]
    · simp only [if_neg hd]
  rw [heq]
  have hdash := pass_moved dash h
  exact hdash.trans (pass_moved plus hdash.2)

theorem scanHex_moved (h : At s l c n) (hz : l.head? = some zero) :
    (scanHex b s).1 = (hexPrefix b l).1 ∧
      Moved (scanHex b s).2 l (hexPrefix b l).2 c n := by
  obtain ⟨l, rfl⟩ := List.head?_eq_some_iff.mp hz
  have hget := h.getc
  have hhex : hexPrefix b (zero :: l) =
      if l.head?.any fun c => c ||| 32 = charx then (16, l.tail) else (b, l) := rfl
  rw [hhex, scanHex, hget.tpch]
  by_cases hx : l.head?.any (fun c => c ||| 32 = charx) = true
  · rw [if_pos hx, if_pos hx]
    refine ⟨rfl, ?_⟩
    rcases l with - | ⟨y, l⟩
    · cases hx
    · exact hget.getc.moved.cons.cons
  · rw [if_neg hx, if_neg hx]
    exact ⟨rfl, hget.moved.cons⟩

theorem scanPrefix_moved (h : At s l c n) : (scanPrefix f b s).1 = (basePrefix f b l).1 ∧
    Moved (scanPrefix f b s).2 l (basePrefix f b l).2 c n := by
  unfold scanPrefix basePrefix
  simp only [h.tpch]
  split
  · exact ⟨rfl, h.moved⟩
  split
  · next hz => exact scanHex_moved h hz.2
  split
  · split
    · next hz => exact scanHex_moved h hz
    · exact ⟨rfl, h.moved⟩
  · exact ⟨rfl, h.moved⟩

theorem basePrefix_nil : (basePrefix f b []).2 = [] := by
  unfold basePrefix
  split
  · rfl
  split
  · next hz => cases hz.2
  split
  · rfl
  · rfl

theorem convInt_follows (h : At s l c n) :
    Follows (matchInt ch f format l c) l c n (.ok (convInt ch f format s)) := by
  have hspace := skipSpace_moved h
  have hsign := hspace.trans (scanSign_moved hspace.2)
  unfold convInt matchInt
  generalize scanSign (skipSpace s) = signs at hsign ⊢
  obtain ⟨neg, s₁⟩ := signs
  simp only at hsign ⊢
  generalize pass plus (pass dash (l.dropWhile isspace)) = number at hsign ⊢
  obtain ⟨hle, hat⟩ := hsign
  by_cases hnil : number = []
  · subst hnil
    have hnone : s₁.tpch = none := hat.tpch
    rw [if_pos hnone, if_pos (.inl rfl), basePrefix_nil, behind_nil]
    exact ⟨_, ⟨s₁, _, hat, rfl⟩, rfl⟩
  have htpch : s₁.tpch ≠ none := by
    rw [hat.tpch]
    simpa using hnil
  rw [if_neg htpch]
  obtain ⟨hbase, hprefix⟩ := scanPrefix_moved (f := f) (b := divOf ch) hat
  generalize scanPrefix f (divOf ch) s₁ = r at hbase hprefix ⊢
  generalize basePrefix f (divOf ch) number = r' at hbase hprefix ⊢
  obtain ⟨base, s₂⟩ := r
  obtain ⟨base', digits⟩ := r'
  obtain rfl : base = base' := hbase
  simp only at hprefix ⊢
  have hdigits := digitLoop_moved (b := base) (i := f.width) (v := 0) hprefix.2 hprefix.2.fuel
  generalize digitLoop base (s₂.rest.length + 1) f.width 0 s₂ = r at hdigits ⊢
  obtain ⟨v, s₃⟩ := r
  simp only at hdigits ⊢
  generalize behind (fun c => decide (digit c < base)) f.width digits = left at hdigits ⊢
  obtain ⟨hle', hat'⟩ := hprefix.trans hdigits
  have hc : s₁.consumed = (c + (l.length - number.length) + 1) % 2 ^ 32 := hat.consumed
  have hc' : s₃.consumed =
      (c + (l.length - number.length) + 1 + (number.length - left.length)) % 2 ^ 32 := by
    rw [hat'.consumed]
    congr 1
    omega
  have hmoved : Moved s₃ l left c n := Moved.trans ⟨hle, hat⟩ ⟨hle', hat'⟩
  rw [← hc, ← hc']
  by_cases heq : s₁.consumed = s₃.consumed
  · rw [if_pos heq, if_pos (.inr heq)]
    exact ⟨_, ⟨s₃, _, hat', rfl⟩, rfl⟩
  rw [if_neg heq, if_neg (by rintro (h | h); exacts [hnil h, heq h])]
  by_cases hd : f.discard = true
  · rw [if_pos hd, if_neg (fun h => by rw [hd] at h; cases h.1)]
    exact ⟨s₃, rfl, hmoved⟩
  rw [if_neg hd]
  rw [Bool.not_eq_true] at hd
  by_cases hlt : s₁.consumed < s₃.consumed
  · rw [if_pos ⟨hd, hlt⟩]
    refine ⟨_, rfl, hmoved.1, hmoved.2.with_n ?_ ?_ ?_ ?_⟩
    all_goals
      simp only [St.store, if_pos hlt, hmoved.2.stored]
  · rw [if_neg fun h => hlt h.2]
    refine ⟨_, rfl, hmoved.1, hmoved.2.with_n ?_ ?_ ?_ ?_⟩
    all_goals
      simp only [St.store, if_neg hlt, hmoved.2.stored]
    rfl

theorem convChar_follows (h : At s l c n) :
    Follows (.go format (behind (fun _ => true) (if f.flagWidth then f.width else 1) l)
      (if f.discard then 0 else 1)) l c n (.ok (convChar f format s)) := by
  obtain ⟨hmoved, -⟩ := textLoop_moved (p := fun _ => true) (z := false) (t := [])
    (i := if f.flagWidth then f.width else 1) h h.fuel
  unfold convChar
  simp only
  generalize (if f.flagWidth = true then f.width else 1) = i at hmoved ⊢
  generalize textLoop (fun _ => true) false _ i [] s = r at hmoved ⊢
  obtain ⟨t, s'⟩ := r
  simp only at hmoved ⊢
  refine ⟨_, rfl, hmoved.1, ?_⟩
  split
  · exact hmoved.2
  · exact hmoved.2.with_n rfl rfl rfl (congrArg (· + 1) hmoved.2.stored)

theorem convString_follows (h : At s l c n) :
    Follows (.go format (behind (fun c => !isspace c && !decide (c = 0)) f.width
        (l.dropWhile isspace)) (if l.dropWhile isspace = [] then 0 else if f.discard then 0 else 1))
      l c n (.ok (convString f format s)) := by
  have hspace := skipSpace_moved h
  unfold convString
  generalize skipSpace s = s₁ at hspace ⊢
  generalize l.dropWhile isspace = l₁ at hspace ⊢
  by_cases hnil : l₁ = []
  · subst hnil
    have hnone : s₁.tpch = none := hspace.2.tpch
    simp only [hnone, if_true, behind_nil]
    refine ⟨_, rfl, hspace.1, ?_⟩
    split
    · exact hspace.2
    · exact hspace.2.with_n rfl rfl rfl hspace.2.stored
  have hsome : s₁.tpch ≠ none := by
    rw [hspace.2.tpch]
    simpa using hnil
  obtain ⟨hmoved, -⟩ := textLoop_moved (p := fun c => !isspace c) (z := true) (t := [])
    (i := f.width) hspace.2 hspace.2.fuel
  simp only [if_neg hsome, if_neg hnil]
  generalize textLoop (fun c => !isspace c) true _ f.width [] s₁ = r at hmoved ⊢
  obtain ⟨t, s'⟩ := r
  have hmoved : Moved s' l (behind (fun c => !isspace c && !decide (c = 0)) f.width l₁) c n :=
    hspace.trans hmoved
  refine ⟨_, rfl, hmoved.1, ?_⟩
  split
  · exact hmoved.2
  · exact hmoved.2.with_n rfl rfl rfl (congrArg (· + 1) hmoved.2.stored)

theorem convSet_follows {set format' : List UInt8} {flagNot : Bool} (h : At s l c n)
    (hset : scanSet format = .ok (set, flagNot, format')) :
    Follows (.go format' (behind (fun c => (c ∈ set ^^ flagNot) && !decide (c = 0)) f.width l)
        (if (behind (fun c => (c ∈ set ^^ flagNot) && !decide (c = 0)) f.width l).length = l.length
          then 0 else if f.discard then 0 else 1))
      l c n (convSet f format s) := by
  obtain ⟨hmoved, hlen⟩ := textLoop_moved (p := fun c => c ∈ set ^^ flagNot) (z := true) (t := [])
    (i := f.width) h h.fuel
  unfold convSet
  rw [hset]
  simp only
  generalize textLoop (fun c => decide (c ∈ set) ^^ flagNot) true _ f.width [] s = r at hmoved hlen ⊢
  obtain ⟨t, s'⟩ := r
  have hmoved : Moved s' l
      (behind (fun c => (c ∈ set ^^ flagNot) && !decide (c = 0)) f.width l) c n := hmoved
  have hlen : t.length = 0 +
      (l.length - (behind (fun c => (c ∈ set ^^ flagNot) && !decide (c = 0)) f.width l).length) := hlen
  generalize behind (fun c => (c ∈ set ^^ flagNot) && !decide (c = 0)) f.width l = left
    at hmoved hlen ⊢
  have hnil : t = [] ↔ left.length = l.length := by
    rw [← List.length_eq_zero_iff, hlen]
    have := hmoved.1
    omega
  refine ⟨_, rfl, hmoved.1, ?_⟩
  by_cases hd : f.discard = true
  · rw [if_pos hd, if_pos hd, ite_self]
    exact hmoved.2
  · rw [if_neg hd, if_neg hd]
    refine hmoved.2.with_n rfl rfl rfl ?_
    simp only [hnil, hmoved.2.stored]
    split <;> rfl

theorem cset_error {set : List UInt8} {e : Stop} (h : cset ch set = .error e) : e = .fault := by
  unfold cset at h
  split at h
  · cases h
  · cases h
    rfl

theorem setLoop_error {d : Bool} {set : List UInt8} {e : Stop}
    (h : setLoop format ch d set = .error e) : e = .fault := by
  induction format generalizing ch d set with
  | nil =>
    cases h
    rfl
  | cons c format ih =>
    rw [setLoop] at h
    split at h
    · split at h
      · cases h
      · split at h
        · next hc =>
          cases h
          exact cset_error hc
        · cases h
    · split at h
      · exact ih h
      · split at h
        · exact ih h
        · split at h
          · next hc =>
            cases h
            exact cset_error hc
          · exact ih h

theorem setFrom_error {e : Stop} (h : setFrom format = .error e) : e = .fault := by
  rcases format with - | ⟨ch, format⟩
  · cases h
    rfl
  simp only [setFrom] at h
  split at h
  · rcases format with - | ⟨ch', format⟩
    · cases h
      rfl
    · exact setLoop_error h
  · exact setLoop_error h

theorem scanSet_error {e : Stop} (h : scanSet format = .error e) : e = .fault := by
  unfold scanSet at h
  simp only at h
  split at h
  · next hfrom =>
    cases h
    exact setFrom_error hfrom
  · cases h

/-- A conversion does what it does on the plain input. -/
theorem convert_follows (h : At s l c n) :
    Follows (matchConv ch f format l c) l c n (convert ch f format s) := by
  have hended : Follows (.stop l .ended) l c n (.ok (.stop (errOut s))) :=
    ⟨.ok (errOut s), ⟨s, c, h, rfl⟩, rfl⟩
  unfold matchConv convert
  simp only [h.tpch]
  by_cases h1 : ch = percent
  · rw [if_pos h1, if_pos h1]
    by_cases hp : l.head? = some percent
    · rw [if_pos hp, if_pos hp]
      obtain ⟨t, rfl⟩ := List.head?_eq_some_iff.mp hp
      exact ⟨_, rfl, h.getc.moved.cons⟩
    · rw [if_neg hp, if_neg hp]
      exact hended
  rw [if_neg h1, if_neg h1]
  by_cases h2 : ch ∈ [charp, charX, charx, chard, charo, charu, chari]
  · rw [if_pos h2, if_pos h2]
    exact convInt_follows h
  rw [if_neg h2, if_neg h2]
  by_cases h3 : ch ∈ [chare, charE, charf, charg]
  · rw [if_pos h3, if_pos h3]
    exact ⟨.error .float, rfl, rfl⟩
  rw [if_neg h3, if_neg h3]
  by_cases h4 : ch = charc
  · rw [if_pos h4, if_pos h4]
    exact convChar_follows h
  rw [if_neg h4, if_neg h4]
  by_cases h5 : ch = chars
  · rw [if_pos h5, if_pos h5]
    exact convString_follows h
  rw [if_neg h5, if_neg h5]
  by_cases h6 : ch = charn
  · rw [if_pos h6, if_pos h6]
    refine ⟨_, rfl, h.moved.1, ?_⟩
    split
    · exact h.moved.2
    · exact h.moved.2.with_n rfl rfl rfl h.stored
  rw [if_neg h6, if_neg h6]
  by_cases h7 : ch = lbracket
  · rw [if_pos h7, if_pos h7]
    rcases hset : scanSet format with e | ⟨set, flagNot, format'⟩
    · refine ⟨.error .fault, rfl, ?_⟩
      rw [convSet, hset, scanSet_error hset]
      rfl
    · exact convSet_follows h hset
  rw [if_neg h7, if_neg h7]
  exact hended

/-! ## The format -/

theorem flags_some {f' : Flags} {format' : List UInt8}
    (h : flag ch f format = some (f', format')) : flags f (ch :: format) = flags f' format' := by
  rw [flags]
  split
  · next h' =>
    rw [h] at h'
    cases h'
    rfl
  · next h' =>
    rw [h] at h'
    cases h'

theorem flags_none (h : flag ch f format = none) : flags f (ch :: format) = (f, ch :: format) := by
  rw [flags]
  split
  · next h' =>
    rw [h] at h'
    cases h'
  · rfl

/-- With a lookahead the flags are passed over. -/
theorem inScan_flags (h : s.tpch ≠ none) : inScan f format s =
    match flags f format with
    | (_, []) => .ok (.stop (leave 0 s))
    | (f, ch :: format) => convert ch f format s := by
  fun_induction inScan f format s with
  | case1 =>
    rw [flags]
    simp only [if_neg h]
  | case2 f ch format hc => exact absurd hc.2 h
  | case3 f ch format hc f' format' hflag ih => rw [flags_some hflag, ih]
  | case4 f ch format hc hflag => rw [flags_none hflag]

/-- At the end of the input there is only `n`. -/
theorem inScan_end (h : s.tpch = none) (hn : format.head? ≠ some charn) :
    inScan f format s = .ok (.stop (errOut s)) := by
  rcases format with - | ⟨ch, format⟩
  · rw [inScan, if_pos h]
  · rw [inScan, if_pos ⟨fun hc => hn (congrArg some hc), h⟩]

theorem inScan_count : inScan noFlags (charn :: format) s = convert charn noFlags format s := by
  have hflag : flag charn noFlags format = none := rfl
  rw [inScan, if_neg fun h => h.1 rfl]
  split
  · next h' =>
    rw [hflag] at h'
    cases h'
  · rfl

theorem inScan_follows (format : List UInt8) (h : At s l c n) :
    Follows (matchPercent format l c) l c n (inScan noFlags format s) := by
  unfold matchPercent
  by_cases hend : l = [] ∧ format.head? ≠ some charn
  · obtain ⟨rfl, hn⟩ := hend
    rw [if_pos ⟨rfl, hn⟩, inScan_end h.tpch hn]
    exact ⟨.ok (errOut s), ⟨s, c, h, rfl⟩, rfl⟩
  rw [if_neg hend]
  by_cases hl : l = []
  · have hn : format.head? = some charn := by
      by_contra hn
      exact hend ⟨hl, hn⟩
    obtain ⟨format, rfl⟩ := List.head?_eq_some_iff.mp hn
    rw [inScan_count, flags_none rfl]
    exact convert_follows h
  · have hsome : s.tpch ≠ none := by
      rw [h.tpch]
      simpa using hl
    rw [inScan_flags hsome]
    rcases flags noFlags format with ⟨f, - | ⟨ch, format⟩⟩
    · exact ⟨.ok (leave 0 s), ⟨hl, s, c, h, rfl⟩, rfl⟩
    · exact convert_follows h

theorem loop_percent : loop (percent :: format) s =
    match inScan noFlags format s with
    | .error e => .error e
    | .ok (.stop e) => .ok e
    | .ok (.go format s) => loop format s := by
  rw [loop, if_neg (by decide), if_pos rfl]
  split
  all_goals
    next heq => rw [heq]

theorem loop_stop {e : Except Stop Exit} (h : inScan noFlags format s = e.map .stop) :
    loop (percent :: format) s = e := by
  rw [loop_percent, h]
  rcases e with e | e <;> rfl

/-- **The code follows the directives**: it is left as they end, with the lookahead at what is left. -/
theorem loop_follows (format : List UInt8) {l : List UInt8} {c n : Nat} {s : St}
    (h : At s l c n) :
    Exits (scan format l c n).why (scan format l c n).left (scan format l c n).n (loop format s) := by
  fun_induction scan format l c n generalizing s with
  | case1 l c n =>
    rw [loop]
    exact ⟨s, c, h, rfl⟩
  | case2 l c n ch format hs left =>
    rename_i ih
    rw [loop, if_pos hs]
    exact ih (skipSpace_moved h).2
  | case3 l c n format left why hstep hs =>
    have hfollows := inScan_follows format h
    rw [hstep] at hfollows
    obtain ⟨e, hexits, hscan⟩ := hfollows
    rw [loop_stop hscan]
    exact hexits
  | case4 l c n format format' left k hstep hs ih =>
    have hfollows := inScan_follows format h
    rw [hstep] at hfollows
    obtain ⟨s', hscan, hmoved⟩ := hfollows
    rw [loop_percent, hscan]
    exact ih hmoved.2
  | case5 l c n ch format hs hp hc ih =>
    rw [loop, if_neg hs, if_neg hp, h.tpch, if_pos hc]
    obtain ⟨t, rfl⟩ := List.head?_eq_some_iff.mp hc.1
    exact ih h.getc
  | case6 l c n ch format hs hp hc =>
    rw [loop, if_neg hs, if_neg hp, h.tpch, if_neg hc]
    exact ⟨s, c, h, rfl⟩

/-! ## The stream -/

/-- What is given back, and what follows, is the rest of the input. -/
def Exit.Leaves (e : Exit) (left : List UInt8) : Prop :=
  e.ret ≠ eof → none ∉ e.given ∧ e.given.reduceOption ++ e.rest = left

theorem errOut_leaves (h : At s left c n) : (errOut s).Leaves left ↔ left ≠ [] ∨ n = 0 := by
  unfold errOut Exit.Leaves
  rw [h.tpch, h.rest, h.stored]
  rcases left with - | ⟨x, left⟩
  · by_cases hn : n = 0
    · rw [if_pos ⟨rfl, hn⟩]
      exact iff_of_true (fun h => absurd rfl h) (.inr hn)
    · rw [if_neg fun h => hn h.2]
      refine iff_of_false (fun h => ?_) (by simp [hn])
      exact (h (by simp [eof])).1 (by simp)
  · rw [if_neg (fun h => by cases h.1)]
    exact iff_of_true (fun _ => ⟨by simp, rfl⟩) (.inl (List.cons_ne_nil _ _))

theorem leave_leaves {r : Int} (hr : r ≠ eof) (h : At s left c n) :
    (leave r s).Leaves left ↔ left = [] := by
  unfold leave Exit.Leaves
  rw [h.rest]
  rcases left with - | ⟨x, left⟩
  · exact iff_of_true (fun _ => ⟨by simp, rfl⟩) rfl
  · refine iff_of_false (fun h => ?_) (List.cons_ne_nil _ _)
    have hlen : left = x :: left := (h hr).2
    exact absurd (congrArg List.length hlen) (by simp)

end Dietlibc.Scanf
