import Dietlibc.Strings.Strverscmp
import Mathlib.Data.List.DropRight

/-!
# The order of `strverscmp`

The numbers are compared only where two runs of digits differ in a digit. Where one of them ends, the
byte behind it is compared with a digit, so that `1a` is above `12a` and `1-` is below `12-`. And two
runs of different length can be one number, which is then neither the smaller nor the same.
-/

namespace Dietlibc.Strings

open Difference
open Number (valueFrom valueFrom_append le_valueFrom)
open Shell (isdigit)

/-- A string that the claims of an order are about. -/
structure Versioned (s : List UInt8) : Prop where
  nul : 0 ∉ s
  short : ShortRuns s

/-- A run as a number is written. -/
def NoLeadingZero (d : List UInt8) : Prop := d.length = 1 ∨ ∃ c ∈ d.head?, c ≠ 48

/-- `strverscmp` compares as an order does, and compares numbers. -/
structure VersionRight (signed : Bool) (s t u : List UInt8) : Prop where
  zero : ∃ r, strverscmp signed (s ++ [0]) (t ++ [0]) = some r ∧ (r = 0 ↔ s = t)
  opposite : ∃ r m, strverscmp signed (s ++ [0]) (t ++ [0]) = some r ∧
    strverscmp signed (t ++ [0]) (s ++ [0]) = some m ∧ r.sign = -m.sign
  transitive : ∃ r m k, strverscmp signed (s ++ [0]) (t ++ [0]) = some r ∧
    strverscmp signed (t ++ [0]) (u ++ [0]) = some m ∧
    strverscmp signed (s ++ [0]) (u ++ [0]) = some k ∧ (r ≤ 0 → m ≤ 0 → k ≤ 0)
  numeric : ∀ p d e q, RunAt s p d q → RunAt t p e q → d ≠ [] → e ≠ [] → NoLeadingZero d →
    NoLeadingZero e → ∃ r, strverscmp signed (s ++ [0]) (t ++ [0]) = some r ∧
      r.sign = ((number d : Int) - number e).sign

/-- Two runs in one place are one number, which is not zero, and are written differently. -/
def Tied (s t : List UInt8) : Prop :=
  ∃ p d e q q', RunAt s p d q ∧ RunAt t p e q' ∧ d ≠ e ∧ number d = number e ∧ number d ≠ 0

/-- In one place stand the numbers `m`, `n` and `k`. The digits of `n` are the first ones of `m`, with a
`char` above the digits behind them, and `k` is not the same in a digit of `n`. -/
def Torn (signed : Bool) (s t u : List UInt8) (m n k : Nat) : Prop :=
  ∃ p d e f q q' q'', RunAt s p d q ∧ RunAt t p e q' ∧ RunAt u p f q'' ∧
    (∃ a r, d = e ++ a :: r) ∧ (∃ c ∈ q'.head?, 57 < charVal signed c) ∧
    (∃ w a b, DifferAt e f w a b) ∧ m = number d ∧ n = number e ∧ k = number f

/-- The number of the third string lies between those of the other two, in a way that turns the three
comparisons into a circle. -/
def Circle (signed : Bool) (s t u : List UInt8) : Prop :=
  (∃ m n k, Torn signed s t u m n k ∧ n < k ∧ k ≤ m) ∨
  (∃ m n k, Torn signed t u s m n k ∧ n ≤ k ∧ k < m) ∨
  ∃ m n k, Torn signed u s t m n k ∧ n < k ∧ k < m

/-- The strings differ in one run, which in one of them is the start of that in the other, and a `char`
above the digits follows. -/
def Outdone (signed : Bool) (s t : List UInt8) : Prop :=
  ∃ p d e q, RunAt s p d q ∧ RunAt t p e q ∧ d ≠ [] ∧ e ≠ [] ∧ NoLeadingZero d ∧
    NoLeadingZero e ∧ ((∃ a r, d = e ++ a :: r) ∨ ∃ a r, e = d ++ a :: r) ∧
    ∃ c ∈ q.head?, 57 < charVal signed c

variable {signed : Bool} {s t u p q q' d e f w x y z r : List UInt8} {a b c : UInt8} {n m k : Nat}

/-! ## Numbers -/

theorem number_longer (hd : ∀ c ∈ e ++ a :: r, isdigit c = true) :
    10 * number e ≤ number (e ++ a :: r) := by
  have ha : isdigit a = true := hd a (by simp)
  rw [number, number, valueFrom_append, valueFrom_cons ha]
  have hle := le_valueFrom (b := 10) (by decide) (valueFrom 10 0 e * 10 + (a.toNat - 48)) r
  omega

/-- A digit that is not 0 makes a number that is not. -/
theorem number_pos (hd : ∀ c ∈ d, isdigit c = true) (hc : c ∈ d) (hne : c ≠ 48) : 0 < number d := by
  obtain ⟨x, y, rfl⟩ := List.append_of_mem hc
  have hdig := isdigit_iff.mp (hd c hc)
  have hnat : c.toNat ≠ 48 := fun h => hne (UInt8.toNat_inj.mp h)
  rw [number, valueFrom_append, valueFrom_cons (hd c hc)]
  have hle := le_valueFrom (b := 10) (by decide) (valueFrom 10 0 x * 10 + (c.toNat - 48)) y
  omega

/-- Runs that differ in a digit are not both zero. -/
theorem number_pos_of_differ (hd : ∀ c ∈ d, isdigit c = true) (he : ∀ c ∈ e, isdigit c = true)
    (h : DifferAt d e w a b) : 0 < number d ∨ 0 < number e := by
  obtain ⟨⟨x', rfl⟩, ⟨y', rfl⟩, hab⟩ := h
  by_cases ha : a = 48
  · exact .inr (number_pos he (by simp) fun hb => hab (ha.trans hb.symm))
  · exact .inl (number_pos hd (by simp) ha)

theorem valueFrom_inj (hd : ∀ c ∈ d, isdigit c = true) (he : ∀ c ∈ e, isdigit c = true)
    (hlen : d.length = e.length) (h : valueFrom 10 n d = valueFrom 10 m e) : n = m ∧ d = e := by
  induction d generalizing e n m with
  | nil =>
    rw [List.length_nil] at hlen
    rw [List.length_eq_zero_iff.mp hlen.symm] at h ⊢
    exact ⟨h, rfl⟩
  | cons a d ih =>
    cases e with
    | nil => cases hlen
    | cons b e =>
      obtain ⟨ha, hd⟩ := List.forall_mem_cons.mp hd
      obtain ⟨hb, he⟩ := List.forall_mem_cons.mp he
      rw [valueFrom_cons ha, valueFrom_cons hb] at h
      obtain ⟨hnm, rfl⟩ := ih hd he (Nat.succ.inj hlen) h
      have hdig := isdigit_iff.mp ha
      have hdig' := isdigit_iff.mp hb
      have hab : a.toNat = b.toNat := by omega
      exact ⟨by omega, by rw [UInt8.toNat_inj.mp hab]⟩

theorem le_valueFrom_pow (hd : ∀ c ∈ d, isdigit c = true) (n : Nat) :
    n * 10 ^ d.length ≤ valueFrom 10 n d := by
  induction d generalizing n with
  | nil => exact le_of_eq (Nat.mul_one n)
  | cons c d ih =>
    obtain ⟨hc, hd⟩ := List.forall_mem_cons.mp hd
    rw [valueFrom_cons hc, List.length_cons]
    calc n * 10 ^ (d.length + 1) = n * 10 * 10 ^ d.length := by ring
      _ ≤ (n * 10 + (c.toNat - 48)) * 10 ^ d.length := Nat.mul_le_mul_right _ (Nat.le_add_right _ _)
      _ ≤ valueFrom 10 (n * 10 + (c.toNat - 48)) d := ih hd _

/-- Without a leading zero, the longer number is the larger one. -/
theorem number_lt_of_length (hd : ∀ c ∈ d, isdigit c = true) (he : ∀ c ∈ e, isdigit c = true)
    (hne : d ≠ []) (hlead : NoLeadingZero e) (hlen : d.length < e.length) : number d < number e := by
  have hpos : 0 < d.length := List.length_pos_iff.mpr hne
  rcases hlead with hone | ⟨c, hc, hc48⟩
  · omega
  · cases e with
    | nil => cases hc
    | cons b e =>
      obtain rfl : b = c := Option.some.inj hc
      obtain ⟨hb, he⟩ := List.forall_mem_cons.mp he
      have hdig := isdigit_iff.mp hb
      have hnat : b.toNat ≠ 48 := fun h => hc48 (UInt8.toNat_inj.mp h)
      rw [List.length_cons] at hlen
      calc number d < 10 ^ (0 + d.length) := valueFrom_lt hd zero_lt_pow_zero
        _ ≤ 10 ^ e.length := Nat.pow_le_pow_right (by decide) (by omega)
        _ ≤ (0 * 10 + (b.toNat - 48)) * 10 ^ e.length := Nat.le_mul_of_pos_left _ (by omega)
        _ ≤ number (b :: e) := by
          rw [number, valueFrom_cons hb]
          exact le_valueFrom_pow he _

theorem number_inj (hd : ∀ c ∈ d, isdigit c = true) (he : ∀ c ∈ e, isdigit c = true) (hdne : d ≠ [])
    (hene : e ≠ []) (hlead : NoLeadingZero d) (hlead' : NoLeadingZero e)
    (h : number d = number e) : d = e := by
  rcases lt_trichotomy d.length e.length with hlt | heq | hgt
  · exact absurd h (number_lt_of_length hd he hdne hlead' hlt).ne
  · exact (valueFrom_inj hd he heq h).2
  · exact absurd h (number_lt_of_length he hd hene hlead hgt).ne'

/-! ## The value of a comparison -/

theorem not_mem_of_eq (hs : 0 ∉ s) (h : s ++ [0] = p ++ a :: x) : 0 ∉ p := by
  intro hmem
  refine hs ?_
  have hdrop := congrArg List.dropLast h
  rw [List.dropLast_concat, List.dropLast_append_of_ne_nil (List.cons_ne_nil _ _)] at hdrop
  rw [hdrop]
  exact List.mem_append_left _ hmem

/-- The run around a digit, with what stands in front of it. -/
theorem exists_run (h : s ++ [0] = p ++ a :: x) (ha : isdigit a = true) :
    ∃ r q, RunAt s (p.rdropWhile isdigit) (p.rtakeWhile isdigit ++ a :: r) q := by
  rcases List.eq_nil_or_concat x with rfl | ⟨x, z, rfl⟩
  · have hzero : (0 : UInt8) = a := (List.cons.inj (List.append_inj' h rfl).2).1
    rw [← hzero, isdigit_zero] at ha
    cases ha
  · rw [List.concat_eq_append, ← List.cons_append, ← List.append_assoc] at h
    refine ⟨x.takeWhile isdigit, x.dropWhile isdigit, ?_, fun c hc => ?_, fun c hc => ?_, fun c hc => ?_⟩
    · rw [(List.append_inj' h rfl).1, List.append_assoc, List.cons_append,
        List.takeWhile_append_dropWhile, ← List.append_assoc, List.rdropWhile_append_rtakeWhile]
    · rcases List.mem_append.mp hc with hc | hc
      · exact List.mem_rtakeWhile_imp hc
      · rcases List.mem_cons.mp hc with rfl | hc
        · exact ha
        · exact List.mem_takeWhile_imp hc
    · by_cases hnil : p.rdropWhile isdigit = []
      · rw [hnil] at hc
        cases hc
      · rw [List.getLast?_eq_some_getLast hnil] at hc
        have hlast := List.rdropWhile_last_not isdigit p hnil
        rw [Option.some.inj hc] at hlast
        simpa using hlast
    · have hnot := List.head?_dropWhile_not isdigit x
      rw [Option.mem_def] at hc
      rw [hc] at hnot
      simpa using hnot

/-- The numbers of two strings that differ in a digit. -/
theorem exists_runs (h : DifferAt (s ++ [0]) (t ++ [0]) p a b) (ha : isdigit a = true)
    (hb : isdigit b = true) : ∃ r r' q q',
      RunAt s (p.rdropWhile isdigit) (p.rtakeWhile isdigit ++ a :: r) q ∧
      RunAt t (p.rdropWhile isdigit) (p.rtakeWhile isdigit ++ b :: r') q' := by
  obtain ⟨⟨x, hx⟩, ⟨y, hy⟩, -⟩ := h
  obtain ⟨r, q, hrun⟩ := exists_run hx ha
  obtain ⟨r', q', hrun'⟩ := exists_run hy hb
  exact ⟨r, r', q, q', hrun, hrun'⟩

/-- What `strverscmp` returns: zero, a difference of bytes one of which is no digit, or the order of two
numbers. -/
theorem strverscmp_cases (signed : Bool) (hs : Versioned s) (ht : Versioned t) :
    (s = t ∧ strverscmp signed (s ++ [0]) (t ++ [0]) = some 0) ∨
    (∃ p a b, DifferAt (s ++ [0]) (t ++ [0]) p a b ∧
      strverscmp signed (s ++ [0]) (t ++ [0]) = some (charVal signed a - charVal signed b) ∧
      strverscmp signed (t ++ [0]) (s ++ [0]) = some (charVal signed b - charVal signed a)) ∨
    ∃ p d e q q' w a b, RunAt s p d q ∧ RunAt t p e q' ∧ DifferAt d e w a b ∧ s ≠ t ∧
      strverscmp signed (s ++ [0]) (t ++ [0]) = some (if number d < number e then -1 else 1) ∧
      strverscmp signed (t ++ [0]) (s ++ [0]) = some (if number e < number d then -1 else 1) := by
  by_cases hst : s = t
  · subst hst
    refine .inl ⟨rfl, ?_⟩
    rw [strverscmp, mismatch_self hs.nul]
    rfl
  · obtain ⟨p, a, b, hd⟩ := exists_differAt hs.nul ht.nul hst
    obtain ⟨⟨x, hx⟩, -, hab⟩ := id hd
    have hp := not_mem_of_eq hs.nul hx
    by_cases hboth : isdigit a = false ∨ isdigit b = false
    · exact .inr (.inl ⟨p, a, b, hd, strverscmp_chars hd hp hboth,
        strverscmp_chars hd.symm hp hboth.symm⟩)
    · obtain ⟨ha, hb⟩ := not_or.mp hboth
      obtain ⟨r, r', q, q', hrun, hrun'⟩ := exists_runs hd (by simpa using ha) (by simpa using hb)
      have hne : DifferAt (p.rtakeWhile isdigit ++ a :: r) (p.rtakeWhile isdigit ++ b :: r') _ a b :=
        ⟨⟨r, rfl⟩, ⟨r', rfl⟩, hab⟩
      have hlen := hs.short _ _ _ hrun
      have hlen' := ht.short _ _ _ hrun'
      exact .inr (.inr ⟨_, _, _, q, q', _, a, b, hrun, hrun', hne, hst,
        strverscmp_numbers signed hs.nul hrun hrun' hne hlen hlen',
        strverscmp_numbers signed ht.nul hrun' hrun hne.symm hlen' hlen⟩)

theorem charVal_inj (h : charVal signed a = charVal signed b) : a = b := by
  have hb := (charVal_eq.mp h).2
  have ha := (charVal_eq.mp (rfl : charVal signed b = charVal signed b)).2
  rw [hb, ← ha]

/-- `strverscmp` is negative. -/
def Before (signed : Bool) (s t : List UInt8) : Prop :=
  ∃ r, strverscmp signed (s ++ [0]) (t ++ [0]) = some r ∧ r < 0

theorem before_iff {v : Int} (h : strverscmp signed (s ++ [0]) (t ++ [0]) = some v) :
    Before signed s t ↔ v < 0 := by
  constructor
  · rintro ⟨r, hr, hneg⟩
    rwa [Option.some.inj (h.symm.trans hr)]
  · exact fun hneg => ⟨v, h, hneg⟩

/-- A value there is, and it is zero for equal strings only. -/
theorem exists_strverscmp (signed : Bool) (hs : Versioned s) (ht : Versioned t) :
    ∃ r, strverscmp signed (s ++ [0]) (t ++ [0]) = some r ∧ (r = 0 ↔ s = t) := by
  rcases strverscmp_cases signed hs ht with ⟨rfl, h⟩ | ⟨p, a, b, hd, h, -⟩ |
    ⟨p, d, e, q, q', w, a, b, -, -, -, hst, h, -⟩
  · exact ⟨0, h, iff_of_true rfl rfl⟩
  · refine ⟨_, h, iff_of_false (fun hzero => hd.2.2 (charVal_inj (sub_eq_zero.mp hzero))) ?_⟩
    rintro rfl
    exact hd.ne rfl
  · refine ⟨_, h, iff_of_false ?_ hst⟩
    split <;> decide

theorem nonpos_iff (hs : Versioned s) (ht : Versioned t) {v : Int}
    (h : strverscmp signed (s ++ [0]) (t ++ [0]) = some v) :
    v ≤ 0 ↔ s = t ∨ Before signed s t := by
  obtain ⟨r, hr, hzero⟩ := exists_strverscmp signed hs ht
  obtain rfl := Option.some.inj (h.symm.trans hr)
  rw [before_iff h, ← hzero]
  omega

theorem Before.asymm (hs : Versioned s) (ht : Versioned t) (h : Before signed s t) :
    ¬Before signed t s := by
  rcases strverscmp_cases signed hs ht with ⟨rfl, hv⟩ | ⟨p, a, b, -, hv, hv'⟩ |
    ⟨p, d, e, q, q', w, a, b, -, -, -, -, hv, hv'⟩
  · exact absurd ((before_iff hv).mp h) (lt_irrefl 0)
  · rw [before_iff hv] at h
    rw [before_iff hv']
    omega
  · rw [before_iff hv] at h
    rw [before_iff hv']
    split at h
    · rw [if_neg (by omega)]
      decide
    · cases h

theorem before_chars (hs : 0 ∉ s) (h : DifferAt (s ++ [0]) (t ++ [0]) p a b)
    (hab : isdigit a = false ∨ isdigit b = false) :
    Before signed s t ↔ charVal signed a < charVal signed b := by
  obtain ⟨⟨x, hx⟩, -, -⟩ := id h
  rw [before_iff (strverscmp_chars h (not_mem_of_eq hs hx) hab), sub_neg]

theorem before_numbers (signed : Bool) (hs : Versioned s) (ht : Versioned t) (hrun : RunAt s p d q)
    (hrun' : RunAt t p e q') (hne : DifferAt d e w a b) :
    Before signed s t ↔ number d < number e := by
  rw [before_iff (strverscmp_numbers signed hs.nul hrun hrun' hne (hs.short _ _ _ hrun)
    (ht.short _ _ _ hrun'))]
  split <;> simp_all

/-! ## Three strings -/

/-- Three strings are ordered as three numbers are. -/
def Ranked (signed : Bool) (x y z : List UInt8) : Prop :=
  ∃ i j k : Int, (Before signed x y ↔ i < j) ∧ (Before signed y x ↔ j < i) ∧
    (Before signed x z ↔ i < k) ∧ (Before signed z x ↔ k < i) ∧
    (Before signed y z ↔ j < k) ∧ (Before signed z y ↔ k < j)

theorem Ranked.swap (h : Ranked signed x y z) : Ranked signed y x z := by
  obtain ⟨i, j, k, h1, h2, h3, h4, h5, h6⟩ := h
  exact ⟨j, i, k, h2, h1, h5, h6, h3, h4⟩

theorem RunAt.differ (hrun : RunAt s p d q) (hrun' : RunAt t p e q') (hne : DifferAt d e w a b) :
    s ≠ t := by
  rw [hrun.eq, hrun'.eq]
  exact ((hne.append q q').append_left p).ne

theorem RunAt.terminated (hrun : RunAt s p d q) : s ++ [0] = p ++ d ++ (q ++ [0]) := by
  rw [hrun.eq]
  simp only [List.append_assoc]

/-- A run goes on where another ends: a digit is compared with the byte behind that one. -/
theorem before_longer (signed : Bool) (hx : 0 ∉ x) (hy : 0 ∉ y) (hrun : RunAt x p (e ++ a :: r) q)
    (hrun' : RunAt y p e q') (hc : q' ++ [0] = c :: w) (hnd : isdigit c = false) :
    (Before signed x y ↔ charVal signed a < charVal signed c) ∧
      (Before signed y x ↔ charVal signed c < charVal signed a) := by
  have ha : isdigit a = true := hrun.digits a (by simp)
  have hdiff : DifferAt (x ++ [0]) (y ++ [0]) (p ++ e) a c := by
    refine ⟨⟨r ++ (q ++ [0]), ?_⟩, ⟨w, ?_⟩, ?_⟩
    · rw [hrun.terminated]
      simp only [List.append_assoc, List.cons_append]
    · rw [hrun'.terminated, hc]
    · rintro rfl
      rw [ha] at hnd
      cases hnd
  exact ⟨before_chars hx hdiff (.inr hnd), before_chars hy hdiff.symm (.inl hnd)⟩

theorem charVal_digit (signed : Bool) (h : isdigit a = true) :
    48 ≤ charVal signed a ∧ charVal signed a ≤ 57 := by
  have hdig := isdigit_iff.mp h
  rw [charVal_of_isdigit h]
  omega

theorem charVal_not_digit (signed : Bool) (h : isdigit c = false) :
    charVal signed c < 48 ∨ 57 < charVal signed c := by
  by_contra hcon
  obtain ⟨h48, h57⟩ := not_or.mp hcon
  have hval : charVal signed c = c.toNat ∨ charVal signed c = c.toNat - 256 := by
    unfold charVal
    split <;> simp
  have hc := c.toNat_lt
  have hnat : 48 ≤ c.toNat ∧ c.toNat ≤ 57 := by omega
  rw [isdigit_iff.mpr hnat] at h
  cases h

/-- The first two strings of a torn triple, and what the third is to them. -/
theorem Torn.order (hs : Versioned s) (ht : Versioned t) (hu : Versioned u)
    (h : Torn signed s t u m n k) : Before signed s t ∧
      ((Before signed s u ↔ m < k) ∧ (Before signed u s ↔ k < m) ∧ s ≠ u) ∧
      ((Before signed t u ↔ n < k) ∧ (Before signed u t ↔ k < n) ∧ t ≠ u) := by
  obtain ⟨p, d, e, f, q, q', q'', hd, he, hf, ⟨a, r, rfl⟩, ⟨c, hc, h57⟩, ⟨w, x, y, hne⟩, rfl, rfl,
    rfl⟩ := h
  have hnd := he.after c hc
  have hdf : DifferAt (e ++ a :: r) f w x y := by
    have happ := hne.append (a :: r) []
    rwa [List.append_nil] at happ
  have hhead : q' ++ [0] = c :: (q'.tail ++ [0]) := by
    cases q' with
    | nil => cases hc
    | cons b q' => rw [Option.some.inj hc]; rfl
  have hlt := charVal_digit signed (hd.digits a (by simp))
  refine ⟨(before_longer signed hs.nul ht.nul hd he hhead hnd).1.mpr (by omega), ?_, ?_⟩
  · exact ⟨before_numbers signed hs hu hd hf hdf, before_numbers signed hu hs hf hd hdf.symm,
      hd.differ hf hdf⟩
  · exact ⟨before_numbers signed ht hu he hf hne, before_numbers signed hu ht hf he hne.symm,
      he.differ hf hne⟩

/-- The run of the first string goes on behind that of the second. -/
theorem longer_cases (signed : Bool) (hx : Versioned x) (hy : Versioned y) (hz : Versioned z)
    (hrun : RunAt x p (e ++ a :: r) q) (hrun' : RunAt y p e q') {q'' : List UInt8}
    (hrun'' : RunAt z p f q'') {b b' : UInt8} (hne : DifferAt e f w b b') :
    Ranked signed x y z ∨ ∃ m n k, Torn signed x y z m n k := by
  obtain ⟨c, v, hcv, hnd⟩ := hrun'.stop
  obtain ⟨hxy, hyx⟩ := before_longer signed hx.nul hy.nul hrun hrun' hcv hnd
  have hlong : DifferAt (e ++ a :: r) f w b b' := by
    have happ := hne.append (a :: r) []
    rwa [List.append_nil] at happ
  have hdig := charVal_digit signed (hrun.digits a (by simp))
  have hle := number_longer hrun.digits
  have hxz := before_numbers signed hx hz hrun hrun'' hlong
  have hzx := before_numbers signed hz hx hrun'' hrun hlong.symm
  have hyz := before_numbers signed hy hz hrun' hrun'' hne
  have hzy := before_numbers signed hz hy hrun'' hrun' hne.symm
  rcases charVal_not_digit signed hnd with hlow | hhigh
  · left
    unfold Ranked
    rw [hxy, hyx, hxz, hzx, hyz, hzy]
    by_cases hlt : number e < number (e ++ a :: r)
    · refine ⟨number (e ++ a :: r), number e, number f, ?_⟩
      omega
    · have hpos := number_pos_of_differ hrun'.digits hrun''.digits hne
      refine ⟨0, -1, number f, ?_⟩
      omega
  · right
    have hc : c ∈ q'.head? := by
      cases q' with
      | nil =>
        obtain ⟨rfl, -⟩ := List.cons.inj hcv
        have hzero : charVal signed 0 = 0 := by cases signed <;> rfl
        omega
      | cons b q' => exact congrArg some (List.cons.inj hcv).1
    exact ⟨_, _, _, p, _, e, f, q, q', q'', hrun, hrun', hrun'', ⟨a, r, rfl⟩, ⟨c, hc, hhigh⟩,
      ⟨w, b, b', hne⟩, rfl, rfl, rfl⟩

/-- Two strings agree where a third differs from them. -/
theorem odd_cases (signed : Bool) (hx : Versioned x) (hy : Versioned y) (hz : Versioned z)
    (h : DifferAt (x ++ [0]) (z ++ [0]) p a b) (h' : DifferAt (y ++ [0]) (z ++ [0]) p a b) :
    ((Before signed x z ↔ Before signed y z) ∧ (Before signed z x ↔ Before signed z y)) ∨
      Ranked signed x y z ∨ (∃ m n k, Torn signed x y z m n k) ∨ ∃ m n k, Torn signed y x z m n k := by
  by_cases hboth : isdigit a = false ∨ isdigit b = false
  · left
    rw [before_chars hx.nul h hboth, before_chars hy.nul h' hboth,
      before_chars hz.nul h.symm hboth.symm, before_chars hz.nul h'.symm hboth.symm]
    exact ⟨Iff.rfl, Iff.rfl⟩
  · obtain ⟨ha, hb⟩ := not_or.mp hboth
    rw [Bool.not_eq_false] at ha hb
    obtain ⟨⟨ux, hux⟩, ⟨uz, huz⟩, hab⟩ := h
    obtain ⟨⟨uy, huy⟩, -, -⟩ := h'
    obtain ⟨rx, qx, hrx⟩ := exists_run hux ha
    obtain ⟨ry, qy, hry⟩ := exists_run huy ha
    obtain ⟨rz, qz, hrz⟩ := exists_run huz hb
    have hdiff : ∀ v,
        DifferAt (p.rtakeWhile isdigit ++ a :: v) (p.rtakeWhile isdigit ++ b :: rz) _ a b :=
      fun v => ⟨⟨v, rfl⟩, ⟨rz, rfl⟩, hab⟩
    have hxz := before_numbers signed hx hz hrx hrz (hdiff rx)
    have hzx := before_numbers signed hz hx hrz hrx (hdiff rx).symm
    have hyz := before_numbers signed hy hz hry hrz (hdiff ry)
    have hzy := before_numbers signed hz hy hrz hry (hdiff ry).symm
    rcases differ_cases (p.rtakeWhile isdigit ++ a :: rx) (p.rtakeWhile isdigit ++ a :: ry) with
      heq | ⟨w, c, c', hne⟩ | ⟨c, v, hv⟩ | ⟨c, v, hv⟩
    · left
      rw [hxz, hyz, hzx, hzy, heq]
      exact ⟨Iff.rfl, Iff.rfl⟩
    · have hxy := before_numbers signed hx hy hrx hry hne
      have hyx := before_numbers signed hy hx hry hrx hne.symm
      refine .inr (.inl ⟨number (p.rtakeWhile isdigit ++ a :: rx),
        number (p.rtakeWhile isdigit ++ a :: ry), number (p.rtakeWhile isdigit ++ b :: rz), ?_⟩)
      simp only [Nat.cast_lt]
      exact ⟨hxy, hyx, hxz, hzx, hyz, hzy⟩
    · rw [hv] at hry
      rcases longer_cases signed hy hx hz hry hrx hrz (hdiff rx) with hr | htorn
      · exact .inr (.inl hr.swap)
      · exact .inr (.inr (.inr htorn))
    · rw [hv] at hrx
      rcases longer_cases signed hx hy hz hrx hry hrz (hdiff ry) with hr | htorn
      · exact .inr (.inl hr)
      · exact .inr (.inr (.inl htorn))

/-- Three strings that differ in one place. -/
theorem before_level (hs : Versioned s) (ht : Versioned t) (hu : Versioned u)
    (hst : DifferAt (s ++ [0]) (t ++ [0]) p a b) (htu : DifferAt (t ++ [0]) (u ++ [0]) p b c)
    (hac : a ≠ c) (h : Before signed s t) (h' : Before signed t u) : Before signed s u := by
  obtain ⟨⟨vs, hvs⟩, ⟨vt, hvt⟩, hab⟩ := id hst
  obtain ⟨-, ⟨vu, hvu⟩, hbc⟩ := id htu
  have hsu : DifferAt (s ++ [0]) (u ++ [0]) p a c := ⟨⟨vs, hvs⟩, ⟨vu, hvu⟩, hac⟩
  by_cases hall : isdigit a = true ∧ isdigit b = true ∧ isdigit c = true
  · obtain ⟨ha, hb, hc⟩ := hall
    obtain ⟨rs, qs, hrs⟩ := exists_run hvs ha
    obtain ⟨rt, qt, hrt⟩ := exists_run hvt hb
    obtain ⟨ru, qu, hru⟩ := exists_run hvu hc
    rw [before_numbers signed hs ht hrs hrt ⟨⟨rs, rfl⟩, ⟨rt, rfl⟩, hab⟩] at h
    rw [before_numbers signed ht hu hrt hru ⟨⟨rt, rfl⟩, ⟨ru, rfl⟩, hbc⟩] at h'
    rw [before_numbers signed hs hu hrs hru ⟨⟨rs, rfl⟩, ⟨ru, rfl⟩, hac⟩]
    exact h.trans h'
  · -- one byte is no digit, and lies on one side of all digits
    have hside : ∀ x, (isdigit x = true ∧ 48 ≤ charVal signed x ∧ charVal signed x ≤ 57) ∨
        isdigit x = false ∧ (charVal signed x < 48 ∨ 57 < charVal signed x) := by
      intro x
      cases hx : isdigit x with
      | true => exact .inl ⟨rfl, charVal_digit signed hx⟩
      | false => exact .inr ⟨rfl, charVal_not_digit signed hx⟩
    rcases hside a with ⟨ha, hav⟩ | ⟨ha, hav⟩ <;> rcases hside b with ⟨hb, hbv⟩ | ⟨hb, hbv⟩ <;>
      rcases hside c with ⟨hc, hcv⟩ | ⟨hc, hcv⟩
    · exact absurd ⟨ha, hb, hc⟩ hall
    · rw [before_chars ht.nul htu (.inr hc)] at h'
      rw [before_chars hs.nul hsu (.inr hc)]
      omega
    · rw [before_chars hs.nul hst (.inr hb)] at h
      rw [before_chars ht.nul htu (.inl hb)] at h'
      omega
    · rw [before_chars hs.nul hst (.inr hb)] at h
      rw [before_chars ht.nul htu (.inl hb)] at h'
      rw [before_chars hs.nul hsu (.inr hc)]
      omega
    all_goals
      rw [before_chars hs.nul hst (.inl ha)] at h
      rw [before_chars hs.nul hsu (.inl ha)]
    · omega
    · rw [before_chars ht.nul htu (.inr hc)] at h'
      omega
    · rw [before_chars ht.nul htu (.inl hb)] at h'
      omega
    · rw [before_chars ht.nul htu (.inl hb)] at h'
      omega

/-- **Where the order is broken**, one number lies between two others. -/
theorem circle_of_not_before (hs : Versioned s) (ht : Versioned t) (hu : Versioned u)
    (hst : Before signed s t) (htu : Before signed t u) (hne : s ≠ u) (hsu : ¬Before signed s u) :
    Circle signed s t u := by
  have hirr : ∀ {v}, Versioned v → ¬Before signed v v := fun hv h => h.asymm hv hv h
  have hne' : s ≠ t := by
    rintro rfl
    exact hirr hs hst
  have hne'' : t ≠ u := by
    rintro rfl
    exact hirr ht htu
  obtain ⟨p, a, b, hd⟩ := exists_differAt hs.nul ht.nul hne'
  obtain ⟨p', b', c, hd'⟩ := exists_differAt ht.nul hu.nul hne''
  rcases hd.three hd' with ⟨rfl, rfl⟩ | hd'' | hd''
  · by_cases hac : a = c
    · subst hac
      rcases odd_cases signed hs hu ht hd hd'.symm with ⟨-, hsame⟩ | hr | ⟨m, n, k, h⟩ |
        ⟨m, n, k, h⟩
      · exact absurd (hsame.mpr htu) (hst.asymm hs ht)
      · obtain ⟨i, j, k, h1, -, h3, -, -, h6⟩ := hr
        rw [h3] at hst
        rw [h6] at htu
        rw [h1] at hsu
        omega
      · exact absurd (h.order hs hu ht).1 hsu
      · obtain ⟨-, ⟨-, h2, -⟩, h3, -, -⟩ := h.order hu hs ht
        exact .inr (.inr ⟨m, n, k, h, h3.mp hst, h2.mp htu⟩)
    · exact absurd (before_level hs ht hu hd hd' hac hst htu) hsu
  · rcases odd_cases signed ht hu hs hd.symm hd''.symm with ⟨-, hsame⟩ | hr |
      ⟨m, n, k, h⟩ | ⟨m, n, k, h⟩
    · exact absurd (hsame.mp hst) hsu
    · obtain ⟨i, j, k, h1, -, -, h4, -, h6⟩ := hr
      rw [h4] at hst
      rw [h1] at htu
      rw [h6] at hsu
      omega
    · obtain ⟨-, ⟨-, h2, -⟩, h3, h4, -⟩ := h.order ht hu hs
      exact .inr (.inl ⟨m, n, k, h, not_lt.mp (mt h4.mpr hsu), h2.mp hst⟩)
    · exact absurd (h.order hu ht hs).1 (htu.asymm ht hu)
  · rcases odd_cases signed hs ht hu hd'' hd' with ⟨hsame, -⟩ | hr | ⟨m, n, k, h⟩ |
      ⟨m, n, k, h⟩
    · exact absurd (hsame.mpr htu) hsu
    · obtain ⟨i, j, k, h1, -, h3, -, h5, -⟩ := hr
      rw [h1] at hst
      rw [h5] at htu
      rw [h3] at hsu
      omega
    · obtain ⟨-, ⟨h1, -, -⟩, h3, -, -⟩ := h.order hs ht hu
      exact .inl ⟨m, n, k, h, h3.mp htu, not_lt.mp (mt h1.mpr hsu)⟩
    · exact absurd (h.order ht hs hu).1 (hst.asymm hs ht)

theorem Circle.broken (hs : Versioned s) (ht : Versioned t) (hu : Versioned u)
    (h : Circle signed s t u) :
    Before signed s t ∧ Before signed t u ∧ s ≠ u ∧ ¬Before signed s u := by
  rcases h with ⟨m, n, k, h, hlt, hle⟩ | ⟨m, n, k, h, hle, hlt⟩ | ⟨m, n, k, h, hlt, hlt'⟩
  · obtain ⟨hst, ⟨h1, -, hne⟩, h3, -, -⟩ := h.order hs ht hu
    exact ⟨hst, h3.mpr hlt, hne, mt h1.mp (by omega)⟩
  · obtain ⟨htu, ⟨-, h2, -⟩, -, h4, hne⟩ := h.order ht hu hs
    exact ⟨h2.mpr hlt, htu, hne.symm, mt h4.mp (by omega)⟩
  · obtain ⟨hus, ⟨-, h2, -⟩, h3, -, -⟩ := h.order hu hs ht
    refine ⟨h3.mpr hlt, h2.mpr hlt', ?_, hus.asymm hu hs⟩
    rintro rfl
    exact hus.asymm hs hs hus

/-! ## The result -/

theorem transitive_iff (hs : Versioned s) (ht : Versioned t) (hu : Versioned u) :
    (∃ r m k, strverscmp signed (s ++ [0]) (t ++ [0]) = some r ∧
      strverscmp signed (t ++ [0]) (u ++ [0]) = some m ∧
      strverscmp signed (s ++ [0]) (u ++ [0]) = some k ∧ (r ≤ 0 → m ≤ 0 → k ≤ 0)) ↔
      ¬Circle signed s t u := by
  obtain ⟨r, hr, -⟩ := exists_strverscmp signed hs ht
  obtain ⟨m, hm, -⟩ := exists_strverscmp signed ht hu
  obtain ⟨k, hk, -⟩ := exists_strverscmp signed hs hu
  constructor
  · rintro ⟨r', m', k', hr', hm', hk', himp⟩ hcircle
    obtain ⟨hst, htu, hne, hsu⟩ := hcircle.broken hs ht hu
    have hle := himp ((nonpos_iff hs ht hr').mpr (.inr hst)) ((nonpos_iff ht hu hm').mpr (.inr htu))
    rcases (nonpos_iff hs hu hk').mp hle with heq | hbefore
    · exact hne heq
    · exact hsu hbefore
  · refine fun hcircle => ⟨r, m, k, hr, hm, hk, fun hle hle' => ?_⟩
    rw [nonpos_iff hs ht hr] at hle
    rw [nonpos_iff ht hu hm] at hle'
    rw [nonpos_iff hs hu hk]
    rcases hle with rfl | hst
    · exact hle'
    · rcases hle' with rfl | htu
      · exact .inr hst
      · by_contra hcon
        obtain ⟨hne, hsu⟩ := not_or.mp hcon
        exact hcircle (circle_of_not_before hs ht hu hst htu hne hsu)

theorem opposite_iff (signed : Bool) (hs : Versioned s) (ht : Versioned t) :
    (∃ r m, strverscmp signed (s ++ [0]) (t ++ [0]) = some r ∧
      strverscmp signed (t ++ [0]) (s ++ [0]) = some m ∧ r.sign = -m.sign) ↔ ¬Tied s t := by
  constructor
  · rintro ⟨r, m, hr, hm, hsign⟩ ⟨p, d, e, q, q', hrun, hrun', hde, hnum, hne0⟩
    rcases differ_cases d e with heq | ⟨w, a, b, hne⟩ | ⟨a, v, rfl⟩ | ⟨a, v, rfl⟩
    · exact hde heq
    · have hlen := hs.short _ _ _ hrun
      have hlen' := ht.short _ _ _ hrun'
      have hst := strverscmp_numbers signed hs.nul hrun hrun' hne hlen hlen'
      have hts := strverscmp_numbers signed ht.nul hrun' hrun hne.symm hlen' hlen
      rw [hnum, if_neg (lt_irrefl _)] at hst hts
      rw [Option.some.inj (hr.symm.trans hst), Option.some.inj (hm.symm.trans hts)] at hsign
      exact absurd hsign (by decide)
    · have hle := number_longer hrun'.digits
      omega
    · have hle := number_longer hrun.digits
      omega
  · intro htied
    rcases strverscmp_cases signed hs ht with ⟨rfl, h⟩ | ⟨p, a, b, -, h, h'⟩ |
      ⟨p, d, e, q, q', w, a, b, hrun, hrun', hne, -, h, h'⟩
    · exact ⟨0, 0, h, h, rfl⟩
    · refine ⟨_, _, h, h', ?_⟩
      rw [← Int.sign_neg, neg_sub]
    · refine ⟨_, _, h, h', ?_⟩
      have hnum : number d ≠ number e := by
        intro heq
        refine htied ⟨p, d, e, q, q', hrun, hrun', hne.ne, heq, ?_⟩
        have hpos := number_pos_of_differ hrun.digits hrun'.digits hne
        omega
      rcases lt_or_gt_of_ne hnum with hlt | hlt
      · rw [if_pos hlt, if_neg (by omega)]
        rfl
      · rw [if_neg (by omega), if_pos hlt]
        rfl

/-- Where the run of one string ends, a byte that is no digit decides. -/
theorem numeric_longer (hs : Versioned s) (ht : Versioned t) (hrun : RunAt s p (e ++ a :: r) q)
    (hrun' : RunAt t p e q') (hne : e ≠ []) (hlead : NoLeadingZero (e ++ a :: r)) {v m : Int}
    (hv : strverscmp signed (s ++ [0]) (t ++ [0]) = some v)
    (hm : strverscmp signed (t ++ [0]) (s ++ [0]) = some m) :
    (v.sign = ((number (e ++ a :: r) : Int) - number e).sign ↔
      ¬∃ c ∈ q'.head?, 57 < charVal signed c) ∧
    (m.sign = ((number e : Int) - number (e ++ a :: r)).sign ↔
      ¬∃ c ∈ q'.head?, 57 < charVal signed c) := by
  obtain ⟨c, x, hcx, hnd⟩ := hrun'.stop
  have hlen : e.length < (e ++ a :: r).length := by simp
  have hlt := number_lt_of_length hrun'.digits hrun.digits hne hlead hlen
  obtain ⟨hst, hts⟩ := before_longer signed hs.nul ht.nul hrun hrun' hcx hnd
  rw [before_iff hv] at hst
  rw [before_iff hm] at hts
  have hdig := charVal_digit signed (hrun.digits a (by simp))
  have hside := charVal_not_digit signed hnd
  have hzero : v ≠ 0 := by
    rintro rfl
    obtain ⟨v, hv', heq⟩ := exists_strverscmp signed hs ht
    have hst' : s = t := heq.mp (Option.some.inj (hv'.symm.trans hv))
    rw [← hst'] at hv hm
    have hm0 := Option.some.inj (hv.symm.trans hm)
    omega
  have hhead : (∃ c ∈ q'.head?, 57 < charVal signed c) ↔ 57 < charVal signed c := by
    cases q' with
    | nil =>
      obtain ⟨rfl, -⟩ := List.cons.inj hcx
      have hzero : charVal signed 0 = 0 := by cases signed <;> rfl
      rw [hzero]
      simp
    | cons b q' =>
      obtain ⟨rfl, -⟩ := List.cons.inj hcx
      simp
  have hpos : (0 : Int) < (number (e ++ a :: r) : Int) - number e := by omega
  have hneg : (number e : Int) - number (e ++ a :: r) < 0 := by omega
  rw [hhead, Int.sign_eq_one_of_pos hpos, Int.sign_eq_neg_one_of_neg hneg, Int.sign_eq_one_iff_pos,
    Int.sign_eq_neg_one_iff_neg]
  clear hhead
  omega

theorem numeric_iff (hs : Versioned s) (ht : Versioned t) :
    (∀ p d e q, RunAt s p d q → RunAt t p e q → d ≠ [] → e ≠ [] → NoLeadingZero d →
      NoLeadingZero e → ∃ r, strverscmp signed (s ++ [0]) (t ++ [0]) = some r ∧
        r.sign = ((number d : Int) - number e).sign) ↔ ¬Outdone signed s t := by
  obtain ⟨v, hv, hzero⟩ := exists_strverscmp signed hs ht
  obtain ⟨m, hm, -⟩ := exists_strverscmp signed ht hs
  constructor
  · rintro h ⟨p, d, e, q, hrun, hrun', hd, he, hlead, hlead', hlong, hhigh⟩
    obtain ⟨r, hr, hsign⟩ := h p d e q hrun hrun' hd he hlead hlead'
    obtain rfl := Option.some.inj (hr.symm.trans hv)
    rcases hlong with ⟨a, x, rfl⟩ | ⟨a, x, rfl⟩
    · exact (numeric_longer hs ht hrun hrun' he hlead hv hm).1.mp hsign hhigh
    · exact (numeric_longer ht hs hrun' hrun hd hlead' hm hv).2.mp hsign hhigh
  · intro hout p d e q hrun hrun' hd he hlead hlead'
    refine ⟨v, hv, ?_⟩
    rcases differ_cases d e with rfl | ⟨w, a, b, hne⟩ | ⟨a, x, rfl⟩ | ⟨a, x, rfl⟩
    · rw [hzero.mpr (hrun.eq.trans hrun'.eq.symm), sub_self]
    · have hnum := strverscmp_numbers signed hs.nul hrun hrun' hne (hs.short _ _ _ hrun)
        (ht.short _ _ _ hrun')
      have hneq : number d ≠ number e := fun heq =>
        hne.ne (number_inj hrun.digits hrun'.digits hd he hlead hlead' heq)
      rw [Option.some.inj (hv.symm.trans hnum)]
      rcases lt_or_gt_of_ne hneq with hlt | hlt
      · have hneg : (number d : Int) - number e < 0 := by omega
        rw [if_pos hlt, Int.sign_eq_neg_one_of_neg hneg]
        rfl
      · have hpos : (0 : Int) < (number d : Int) - number e := by omega
        rw [if_neg (by omega), Int.sign_eq_one_of_pos hpos]
        rfl
    · exact (numeric_longer ht hs hrun' hrun hd hlead' hm hv).2.mpr fun hhigh =>
        hout ⟨p, d, _, q, hrun, hrun', hd, he, hlead, hlead', .inr ⟨a, x, rfl⟩, hhigh⟩
    · exact (numeric_longer hs ht hrun hrun' he hlead hv hm).1.mpr fun hhigh =>
        hout ⟨p, _, e, q, hrun, hrun', hd, he, hlead, hlead', .inl ⟨a, x, rfl⟩, hhigh⟩

/-- **`strverscmp` is an order that compares numbers exactly if** the strings have no runs that are one
number written in two ways, no number lies between two that are compared by a byte behind them, and no
run is the start of another in front of a byte above the digits. -/
theorem version_right_iff (signed : Bool) (hs : Versioned s) (ht : Versioned t) (hu : Versioned u) :
    VersionRight signed s t u ↔
      ¬Tied s t ∧ ¬Circle signed s t u ∧ ¬Outdone signed s t := by
  rw [← opposite_iff signed hs ht, ← transitive_iff hs ht hu, ← numeric_iff hs ht]
  constructor
  · exact fun h => ⟨h.opposite, h.transitive, h.numeric⟩
  · exact fun h => ⟨exists_strverscmp signed hs ht, h.1, h.2.1, h.2.2⟩

theorem versioned_of_length (h0 : 0 ∉ s) (h : s.length ≤ 18) : Versioned s := by
  refine ⟨h0, fun p d q hrun => ?_⟩
  have hlen := congrArg List.length hrun.eq
  rw [List.length_append, List.length_append] at hlen
  omega

/-- `"1-"`, `"a"` and `"12-"`. -/
theorem version_right_iff_dash : VersionRight true [49, 45] [97] [49, 50, 45] ↔
    ¬Tied [49, 45] [97] ∧ ¬Circle true [49, 45] [97] [49, 50, 45] ∧ ¬Outdone true [49, 45] [97] :=
  version_right_iff true (versioned_of_length (by decide) (by decide))
    (versioned_of_length (by decide) (by decide)) (versioned_of_length (by decide) (by decide))

/-- `"1a"` and `"12a"`: the number 1 is above the number 12. -/
theorem version_outdone : ¬∀ (signed : Bool) (s t u : List UInt8), Versioned s → Versioned t →
    Versioned u → VersionRight signed s t u := by
  intro h
  have hs : Versioned [49, 97] := versioned_of_length (by decide) (by decide)
  have ht : Versioned [49, 50, 97] := versioned_of_length (by decide) (by decide)
  have hrun : RunAt [49, 97] [] [49] [97] :=
    ⟨rfl, by simp [isdigit], by simp, by simp [isdigit]⟩
  have hrun' : RunAt [49, 50, 97] [] [49, 50] [97] :=
    ⟨rfl, by simp [isdigit], by simp, by simp [isdigit]⟩
  obtain ⟨r, hr, hsign⟩ := (h true _ _ _ hs ht ht).numeric [] [49] [49, 50] [97] hrun hrun' (by decide)
    (by decide) (.inl rfl) (.inr ⟨49, rfl, by decide⟩)
  have hval : strverscmp true ([49, 97] ++ [0]) ([49, 50, 97] ++ [0]) = some 47 := by decide
  rw [Option.some.inj (hr.symm.trans hval)] at hsign
  revert hsign
  decide

end Dietlibc.Strings
