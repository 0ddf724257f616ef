import Dietlibc.Lib.Strtol
import Dietlibc.Number.Value

/-!
# `strtoul` on characters

Addresses are read as lists of characters, numbers as lists of bytes. On the characters of a byte
string `Lib.strtoul` finds the number that `subject` finds.
-/

namespace Dietlibc.Number

open CInt

variable {b v : Nat} {s : List UInt8}

/-- The characters of a string. -/
def chars (s : List UInt8) : List Char := s.map fun c => Char.ofNat c.toNat

@[simp] theorem chars_nil : chars [] = [] := rfl

@[simp] theorem chars_cons (c : UInt8) (s : List UInt8) :
    chars (c :: s) = Char.ofNat c.toNat :: chars s := rfl

@[simp] theorem length_chars (s : List UInt8) : (chars s).length = s.length := List.length_map _

theorem isspace_char (c : UInt8) : Lib.isspace (Char.ofNat c.toNat) = isWhite c := by
  apply forall_byte (P := fun c => Lib.isspace (Char.ofNat c.toNat) = isWhite c)
  decide +kernel

theorem isxdigit_char (c : UInt8) : Lib.isxdigit (Char.ofNat c.toNat) = IsDigit 16 c := by
  apply forall_byte (P := fun c => Lib.isxdigit (Char.ofNat c.toNat) = IsDigit 16 c)
  decide +kernel

theorem digitVal_char (c : UInt8) : Lib.digitVal (Char.ofNat c.toNat) = (digitOf c).toNat := by
  apply forall_byte (P := fun c => Lib.digitVal (Char.ofNat c.toNat) = (digitOf c).toNat)
  decide +kernel

theorem char_inj {c d : UInt8} : Char.ofNat c.toNat = Char.ofNat d.toNat ↔ c = d := by
  have hd : ∀ c : UInt8, (Char.ofNat c.toNat).toNat = c.toNat := by
    intro c
    apply forall_byte (P := fun c => (Char.ofNat c.toNat).toNat = c.toNat)
    decide +kernel
  refine ⟨fun h => UInt8.toNat_inj.mp ?_, fun h => h ▸ rfl⟩
  rw [← hd c, ← hd d, h]

/-- The character of a byte is a given one exactly if the byte is. -/
theorem char_eq {c : UInt8} (d : UInt8) {x : Char} (hx : Char.ofNat d.toNat = x) :
    Char.ofNat c.toNat = x ↔ c = d := by
  rw [← hx, char_inj]

theorem dropWhile_chars (s : List UInt8) :
    (chars s).dropWhile Lib.isspace = chars (s.dropWhile isWhite) := by
  induction s with
  | nil => rfl
  | cons c s ih =>
    rw [chars_cons, List.dropWhile_cons, List.dropWhile_cons, isspace_char]
    split
    · exact ih
    · rfl

theorem strtoulSign_chars (s : List UInt8) :
    Lib.strtoulSign (chars s) = ((signPrefix s).1, chars (signPrefix s).2) := by
  cases s with
  | nil => rfl
  | cons c s =>
    by_cases h45 : c = 45
    · subst h45
      rfl
    by_cases h43 : c = 43
    · subst h43
      rfl
    rw [signPrefix_none h45 h43, chars_cons, Lib.strtoulSign.eq_def]
    split
    · rename_i h
      exact absurd ((char_eq 45 rfl).mp (List.cons.inj h).1) h45
    · rename_i h
      exact absurd ((char_eq 43 rfl).mp (List.cons.inj h).1) h43
    · rfl

theorem strtoulBase_chars (base : Nat) (s : List UInt8) :
    Lib.strtoulBase base (chars s) = ((basePrefix base s).1, chars (basePrefix base s).2) := by
  unfold basePrefix
  split
  · rename_i x d s'
    have hx : (Char.ofNat x.toNat = 'x' ∨ Char.ofNat x.toNat = 'X') ↔ (x = 120 ∨ x = 88) := by
      rw [char_eq (x := 'x') 120 rfl, char_eq (x := 'X') 88 rfl]
    rw [chars_cons, chars_cons, chars_cons, Lib.strtoulBase.eq_def]
    simp only [show Char.ofNat (UInt8.toNat 48) = '0' from rfl, hx, isxdigit_char]
    split <;> rfl
  · rename_i t hlong
    match t, hlong with
    | [], _ => rfl
    | [x], _ => rfl
    | x :: d :: s', hlong => exact (hlong x d s' rfl).elim
  · rename_i hlong hzero
    cases s with
    | nil => rfl
    | cons c s =>
      have hc : Char.ofNat c.toNat ≠ '0' := fun h =>
        hzero s (congrArg (· :: s) ((char_eq (x := '0') 48 rfl).mp h))
      rw [chars_cons, Lib.strtoulBase.eq_def]
      split
      · rename_i h
        exact absurd (List.cons.inj h).1 hc
      · rename_i h
        exact absurd (List.cons.inj h).1 hc
      · rfl

/-- A digit is put behind `v` in the same way. -/
theorem strtoulLoop_chars (hb : b ≤ 36) (s : List UInt8) (hv : v < 2 ^ 64) (o : Bool) :
    Lib.strtoulLoop b (chars s) v o = ((digitLoop addUlong b s v o).1,
      (digitLoop addUlong b s v o).2.1, chars (digitLoop addUlong b s v o).2.2) := by
  induction s generalizing v o with
  | nil => rfl
  | cons c s ih =>
    rw [chars_cons, Lib.strtoulLoop, digitLoop, digitVal_char]
    by_cases hd : b ≤ (digitOf c).toNat
    · rw [if_pos hd, if_pos hd]
      rfl
    · rw [if_neg hd, if_neg hd]
      generalize hdig : (digitOf c).toNat = d at hd
      have hlow := low_bound (n := v) hb (Nat.lt_of_not_le hd)
      have hhigh := high_bound hv hb
      have hadd : addUlong b v d = ((v / 256 * b + (v % 256 * b + d) / 256) * 256 % 2 ^ 64 +
          (v % 256 * b + d) % 256,
          decide ((2 ^ 64 - 1) / 256 < v / 256 * b + (v % 256 * b + d) / 256)) := by
        unfold addUlong
        generalize v / 2 ^ 8 * b = p at hhigh ⊢
        generalize v % 2 ^ 8 * b + d = q at hlow ⊢
        rw [Prod.mk.injEq, decide_eq_decide]
        omega
      rw [hadd]
      exact ih (by omega) _

/-- **`strtoul` on characters** finds the number of the string. -/
theorem strtoul_chars {base : Nat} (h : BaseOk base) (s : List UInt8) :
    (Lib.strtoul (chars s) base).1 = (strtoul s base 0).value ∧
      (Lib.strtoul (chars s) base).2.1 =
        if (subject s base).digits = [] then chars s else chars (subject s base).rest := by
  rw [strtoul_eq h, ulongOf, subject, Subject.value, Lib.strtoul, dropWhile_chars,
    strtoulSign_chars]
  obtain ⟨neg, orig⟩ := signPrefix (s.dropWhile isWhite)
  have hok := basePrefix_ok h orig
  have hno := noDigits_iff base orig
  simp only [strtoulBase_chars]
  generalize basePrefix base orig = p at hok hno ⊢
  obtain ⟨b, t⟩ := p
  obtain ⟨w, hloop, hw⟩ := digitLoop_spec adds_ulong hok.1 hok.2 t adds_ulong.start (by norm_num)
  dsimp only at hloop hw hno ⊢
  rw [strtoulLoop_chars hok.2 t (by norm_num), hloop]
  dsimp only
  rw [length_chars, length_chars]
  by_cases hd : t.takeWhile (IsDigit b) = []
  · rw [if_pos hd, if_pos (hno.2 hd), if_pos hd]
    exact ⟨rfl, rfl⟩
  · rw [if_neg hd, if_neg (fun h' => hd (hno.1 h')), if_neg hd]
    by_cases hlt : valueFrom b 0 (t.takeWhile (IsDigit b)) < 2 ^ 64
    · rw [if_neg (by simp; omega), if_pos hlt]
      exact ⟨value_ulong neg w _ (hw hlt) hlt, rfl⟩
    · rw [if_pos (by simp; omega), if_neg hlt]
      exact ⟨rfl, rfl⟩

end Dietlibc.Number
