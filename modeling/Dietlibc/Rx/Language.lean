import Dietlibc.Rx.Brackets
import Dietlibc.Rx.Grammar
import Mathlib.Computability.Language

/-!
# Patterns and the languages they denote

`Ere` is the syntax of extended patterns without anchors, with the text of each (`Ere.show`) and the
regular language it denotes (`Ere.lang`). The trees of the parser have a language as well; a
repetition in a tree has bounds, and those of the pattern are larger only for long texts (`Near`).
-/

namespace Dietlibc.Rx

open Shell (isdigit period lbracket backslash)

/-! ## Patterns -/

/-- What may stand behind an atom; the numbers are given by their digits. -/
inductive Repeat where
  | once
  | star
  | plus
  | quest
  | exactly (m : List UInt8)
  | atLeast (m : List UInt8)
  | between (m n : List UInt8)

mutual

/-- An atom: a literal, with a backslash or not, `.`, a bracket expression, `()`, or a group. -/
inductive EreAtom where
  | literal (quoted : Bool) (c : UInt8)
  | any
  | bracket (p : Ptr)
  | unit
  | group (r : Ere)

/-- The pieces of a branch. -/
inductive EreBranch where
  | nil
  | cons (a : EreAtom) (k : Repeat) (b : EreBranch)

/-- The branches. -/
inductive Ere where
  | one (b : EreBranch)
  | alt (b : EreBranch) (r : Ere)

end

/-! ## Text -/

def Repeat.show : Repeat → Ptr
  | .once => []
  | .star => [Shell.star]
  | .plus => [Rx.plus]
  | .quest => [Shell.quest]
  | .exactly m => lbrace :: (m ++ [rbrace])
  | .atLeast m => lbrace :: (m ++ [comma, rbrace])
  | .between m n => lbrace :: (m ++ comma :: (n ++ [rbrace]))

mutual

def EreAtom.show : EreAtom → Ptr
  | .literal quoted c => if quoted then [backslash, c] else [c]
  | .any => [period]
  | .bracket p => p
  | .unit => [lparen, rparen]
  | .group r => lparen :: (r.show ++ [rparen])

def EreBranch.show : EreBranch → Ptr
  | .nil => []
  | .cons a k b => a.show ++ (k.show ++ b.show)

def Ere.show : Ere → Ptr
  | .one b => b.show
  | .alt b r => b.show ++ bar :: r.show

end

/-! ## What is well formed -/

/-- The number that digits stand for. -/
def number (ds : List UInt8) : Nat := ds.foldl (fun n c => n * 10 + (c.toNat - 48)) 0

/-- A number of repetitions. -/
structure IsCount (ds : List UInt8) : Prop where
  nonempty : ds ≠ []
  digits : ∀ c ∈ ds, isdigit c = true
  bound : number ds ≤ reDupMax

def Repeat.Wf : Repeat → Prop
  | .exactly m | .atLeast m => IsCount m
  | .between m n => IsCount m ∧ IsCount n ∧ number m ≤ number n
  | _ => True

mutual

def EreAtom.Wf : EreAtom → Prop
  | .literal false c => c ≠ 0 ∧ isSpecial c = false
  | .literal true c => c ≠ 0 ∧ c ≠ less ∧ c ≠ greater
  | .any | .unit => True
  | .bracket p => p.head? = some lbracket ∧ (scan (members p)).2 = .closed []
  | .group r => r.Wf

def EreBranch.Wf : EreBranch → Prop
  | .nil => True
  | .cons a k b => a.Wf ∧ k.Wf ∧ b.Wf

def Ere.Wf : Ere → Prop
  | .one b => b ≠ .nil ∧ b.Wf
  | .alt b r => b ≠ .nil ∧ b.Wf ∧ r.Wf

end

mutual

/-- The atoms of a pattern, those in its groups with them. -/
def EreAtom.All (P : EreAtom → Prop) : EreAtom → Prop
  | .group r => r.All P
  | a => P a

def EreBranch.All (P : EreAtom → Prop) : EreBranch → Prop
  | .nil => True
  | .cons a _ b => a.All P ∧ b.All P

def Ere.All (P : EreAtom → Prop) : Ere → Prop
  | .one b => b.All P
  | .alt b r => b.All P ∧ r.All P

end

mutual

theorem EreAtom.All.imp {P Q : EreAtom → Prop} (h : ∀ a, P a → Q a) :
    ∀ {a : EreAtom}, a.All P → a.All Q
  | .literal _ _, ha => h _ ha
  | .any, ha => h _ ha
  | .bracket _, ha => h _ ha
  | .unit, ha => h _ ha
  | .group r, ha => Ere.All.imp h (r := r) ha

theorem EreBranch.All.imp {P Q : EreAtom → Prop} (h : ∀ a, P a → Q a) :
    ∀ {b : EreBranch}, b.All P → b.All Q
  | .nil, _ => trivial
  | .cons _ _ _, hb => ⟨EreAtom.All.imp h hb.1, EreBranch.All.imp h hb.2⟩

theorem Ere.All.imp {P Q : EreAtom → Prop} (h : ∀ a, P a → Q a) : ∀ {r : Ere}, r.All P → r.All Q
  | .one b, hr => EreBranch.All.imp h (b := b) hr
  | .alt _ _, hr => ⟨EreBranch.All.imp h hr.1, Ere.All.imp h hr.2⟩

end

/-- A bracket expression is as the parser needs it, and a literal is from `P`. -/
def EreAtom.Fine (fl : Cflags) (P : UInt8 → Prop) : EreAtom → Prop
  | .bracket p => BracketFine fl p
  | .literal _ c => P c
  | _ => True

theorem EreAtom.Fine.imp {fl : Cflags} {P Q : UInt8 → Prop} (h : ∀ b, P b → Q b) {a : EreAtom}
    (ha : a.Fine fl P) : a.Fine fl Q := by
  cases a with
  | literal quoted c => exact h c ha
  | bracket p => exact ha
  | _ => trivial

/-! ## Languages -/

/-- How often the atom may match. -/
def Repeat.Counts : Repeat → Nat → Prop
  | .once, k => k = 1
  | .star, _ => True
  | .plus, k => 1 ≤ k
  | .quest, k => k ≤ 1
  | .exactly m, k => k = number m
  | .atLeast m, k => number m ≤ k
  | .between m n, k => number m ≤ k ∧ k ≤ number n

/-- So many words of the language in a row. -/
def repeated (counts : Nat → Prop) (L : Language UInt8) : Language UInt8 :=
  {w | ∃ k, counts k ∧ w ∈ L ^ k}

theorem repeated_one (L : Language UInt8) : repeated (fun k => k = 1) L = L := by
  ext w
  constructor
  · rintro ⟨k, rfl, hw⟩
    rwa [pow_one] at hw
  · intro hw
    exact ⟨1, rfl, by rwa [pow_one]⟩

theorem repeated_once (L : Language UInt8) : repeated Repeat.once.Counts L = L := repeated_one L

theorem singleton_mul (u v : List UInt8) : ({u} * {v} : Language UInt8) = {u ++ v} :=
  Set.image2_singleton

/-- The words of one byte from a set. -/
def single (P : UInt8 → Prop) : Language UInt8 := {w | ∃ b, w = [b] ∧ b ≠ 0 ∧ P b}

mutual

def EreAtom.lang : EreAtom → Language UInt8
  | .literal _ c => {[c]}
  | .any => single fun _ => True
  | .bracket p => single fun b => bracketSet p b = true
  | .unit => 1
  | .group r => r.lang

def EreBranch.lang : EreBranch → Language UInt8
  | .nil => 1
  | .cons a k b => repeated k.Counts a.lang * b.lang

/-- The language that a pattern denotes. -/
def Ere.lang : Ere → Language UInt8
  | .one b => b.lang
  | .alt b r => b.lang + r.lang

end

mutual

/-- The language of an atom of the tree. -/
def Atom.lang : Atom → Language UInt8
  | .empty _ => 1
  | .regex _ r => r.lang
  | .bracket cc => single fun b => issetcc cc b.toNat = true
  | .any => single fun _ => True
  | .char c => {[c]}
  | .string l => {l}
  | _ => 0

def Branch.lang : Branch → Language UInt8
  | .nil => 1
  | .cons a min max b => repeated (fun k => min ≤ k ∧ k ≤ max) a.lang * b.lang

def Regex.lang : Regex → Language UInt8
  | .nil => 0
  | .cons b r => b.lang + r.lang

end

mutual

/-- A tree of atoms that match characters, from `P` where they are literals, and of groups. -/
def Atom.Plain (P : UInt8 → Prop) : Atom → Prop
  | .empty bnum => bnum ≠ none
  | .bracket _ | .any => True
  | .char c => c ≠ 0 ∧ P c
  | .string l => 0 ∉ l ∧ ∀ c ∈ l, P c
  | .regex bnum r => bnum ≠ none ∧ r ≠ .nil ∧ r.Plain P
  | _ => False

def Branch.Plain (P : UInt8 → Prop) : Branch → Prop
  | .nil => True
  | .cons a _ _ b => a.Plain P ∧ b.Plain P

def Regex.Plain (P : UInt8 → Prop) : Regex → Prop
  | .nil => True
  | .cons b r => b ≠ .nil ∧ b.Plain P ∧ r.Plain P

end

/-! ## Long words -/

/-- The language `T` of a tree is that of a pattern, apart from words that are too long. -/
structure Near (T E : Language UInt8) : Prop where
  sound : ∀ w ∈ T, w ∈ E
  short : ∀ w ∈ E, w.length < reDupMax → w ∈ T

section

variable {L M T E T' E' : Language UInt8} {w : List UInt8} {k m n : Nat}

theorem Near.refl (L : Language UInt8) : Near L L := ⟨fun _ h => h, fun _ h _ => h⟩

theorem Near.add (h : Near T E) (h' : Near T' E') : Near (T + T') (E + E') := by
  refine ⟨fun w hw => ?_, fun w hw hlen => ?_⟩
  · exact ((Language.mem_add _ _ _).mp hw).imp (h.sound w) (h'.sound w)
  · exact ((Language.mem_add _ _ _).mp hw).imp (h.short w · hlen) (h'.short w · hlen)

theorem Near.mul (h : Near T E) (h' : Near T' E') : Near (T * T') (E * E') := by
  refine ⟨fun w hw => ?_, fun w hw hlen => ?_⟩
  · obtain ⟨u, hu, v, hv, rfl⟩ := Language.mem_mul.mp hw
    exact Language.mem_mul.mpr ⟨u, h.sound u hu, v, h'.sound v hv, rfl⟩
  · obtain ⟨u, hu, v, hv, rfl⟩ := Language.mem_mul.mp hw
    rw [List.length_append] at hlen
    exact Language.mem_mul.mpr
      ⟨u, h.short u hu (by omega), v, h'.short v hv (by omega), rfl⟩

theorem Near.pow (h : Near T E) (k : Nat) : Near (T ^ k) (E ^ k) := by
  induction k with
  | zero =>
    rw [pow_zero, pow_zero]
    exact Near.refl 1
  | succ k ih =>
    rw [pow_succ', pow_succ']
    exact h.mul ih

/-- Of more words than letters one is empty, and may be left out. -/
theorem mem_pow_pred (h : w ∈ L ^ (k + 1)) (hlen : w.length < k + 1) : w ∈ L ^ k := by
  induction k generalizing w with
  | zero =>
    rw [List.length_eq_zero_iff.mp (Nat.lt_one_iff.mp hlen)]
    exact Language.nil_mem_one
  | succ k ih =>
    rw [pow_succ'] at h
    obtain ⟨u, hu, v, hv, rfl⟩ := Language.mem_mul.mp h
    rw [List.length_append] at hlen
    cases u with
    | nil => exact hv
    | cons c u =>
      rw [List.length_cons] at hlen
      rw [pow_succ']
      exact Language.mem_mul.mpr ⟨c :: u, hu, v, ih hv (by omega), rfl⟩

/-- No more words are needed than there are letters, or than are asked for. -/
theorem mem_pow_short (h : w ∈ L ^ k) (hlen : w.length ≤ n) (hk : n ≤ k) : w ∈ L ^ n := by
  obtain ⟨d, rfl⟩ := Nat.exists_eq_add_of_le hk
  induction d with
  | zero => exact h
  | succ d ih => exact ih (mem_pow_pred h (by omega)) (by omega)

/-- A repetition with bounds is near one that has a bound below only, or the same bounds. -/
theorem Near.repeated {counts : Nat → Prop} (h : Near T E) (hm : m ≤ n)
    (hin : ∀ k, m ≤ k → k ≤ n → counts k) (hlow : ∀ k, counts k → m ≤ k)
    (hhigh : (∀ k, counts k → k ≤ n) ∨ reDupMax ≤ n) :
    Near (repeated (fun k => m ≤ k ∧ k ≤ n) T) (repeated counts E) := by
  refine ⟨fun w hw => ?_, fun w hw hlen => ?_⟩
  · obtain ⟨k, ⟨hmk, hkn⟩, hw⟩ := hw
    exact ⟨k, hin k hmk hkn, (h.pow k).sound w hw⟩
  · obtain ⟨k, hk, hw⟩ := hw
    by_cases hkn : k ≤ n
    · exact ⟨k, ⟨hlow k hk, hkn⟩, (h.pow k).short w hw hlen⟩
    · have hn := hhigh.resolve_left fun hall => hkn (hall k hk)
      exact ⟨n, ⟨hm, le_refl n⟩,
        (h.pow n).short w (mem_pow_short hw (by omega) (by omega)) hlen⟩

end

end Dietlibc.Rx
