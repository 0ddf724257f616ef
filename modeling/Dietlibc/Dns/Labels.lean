import Dietlibc.Dns.Name

/-!
# Runs of labels

`Run p pos ls pos'`: the labels `ls` stand in the message from `pos` to `pos'`. `decodename`
copies a run as a whole, and `after` follows it.
-/

namespace Dietlibc.Dns

variable {p : Packet} {maxlen pos pos' : Nat} {ls : List (List UInt8)} {c : Cursor}

/-- The labels `ls` from `pos` up to `pos'`. -/
inductive Run (p : Packet) : Nat → List (List UInt8) → Nat → Prop where
  | nil (pos : Nat) : Run p pos [] pos
  | cons {pos pos' : Nat} {b : UInt8} {ls : List (List UInt8)} : p[pos]? = some b → b ≠ 0 →
      b >>> 6 = 0 → pos + b.toNat + 1 < p.length → Run p (pos + b.toNat + 1) ls pos' →
      Run p pos ((p.drop (pos + 1)).take b.toNat :: ls) pos'

/-- The labels with a dot behind each. -/
def dotted (ls : List (List UInt8)) : List UInt8 := ls.flatMap (· ++ [46])

theorem length_dotted_cons (l : List UInt8) (ls : List (List UInt8)) :
    (dotted (l :: ls)).length = l.length + 1 + (dotted ls).length := by
  simp only [dotted, List.flatMap_cons, List.length_append, List.length_singleton]

theorem length_label {n : Nat} (h : pos + n + 1 < p.length) :
    ((p.drop (pos + 1)).take n).length = n := by
  rw [List.length_take, List.length_drop]
  omega

theorem Run.end_eq (h : Run p pos ls pos') : pos + (dotted ls).length = pos' := by
  induction h with
  | nil => rfl
  | cons hb hb0 h6 hin hrun ih =>
    rw [← ih, length_dotted_cons, length_label hin]
    omega

/-- A run that is not empty starts with a label. -/
theorem Run.head (h : Run p pos ls pos') (hne : ls ≠ []) : pos < pos' ∧ p[pos]? ≠ some 0 := by
  cases h with
  | nil => exact absurd rfl hne
  | cons hb hb0 h6 hin hrun =>
    have hend := hrun.end_eq
    refine ⟨by omega, fun h0 => hb0 ?_⟩
    rw [hb] at h0
    exact Option.some.inj h0

/-- The cursor behind a run of labels. -/
def Cursor.along (c : Cursor) (p : Packet) (ls : List (List UInt8)) (pos' : Nat) : Cursor :=
  { c with
    tmp := pos'
    out := c.out ++ dotted ls
    ok := true
    after := if c.after < pos' then if p[pos']? = some 0 then pos' + 1 else pos' else c.after }

/-- The loop copies a run of labels. -/
theorem decodeLoop_run (h : Run p c.tmp ls pos') (hne : ls ≠ [])
    (hroom : (c.out ++ dotted ls).length ≤ maxlen) :
    decodeLoop p maxlen c = decodeLoop p maxlen (c.along p ls pos') := by
  generalize hpos : c.tmp = pos at h
  induction h generalizing c with
  | nil => exact absurd rfl hne
  | cons hb hb0 h6 hin hrun ih =>
    rename_i pos pos' b ls
    subst hpos
    have hdot : dotted ((p.drop (c.tmp + 1)).take b.toNat :: ls) =
        (p.drop (c.tmp + 1)).take b.toNat ++ [46] ++ dotted ls := by
      simp [dotted]
    rw [List.length_append, length_dotted_cons, length_label hin] at hroom
    have ht : turn p maxlen c = .again (c.copy p b.toNat) := by
      rw [turn_label hb hb0 h6, labelTurn, if_neg (by omega), if_neg (Nat.not_le_of_lt hin)]
    rw [decodeLoop, ht]
    dsimp only
    by_cases hls : ls = []
    · subst hls
      cases hrun
      rw [Cursor.along, hdot]
      simp only [Cursor.copy, dotted, List.flatMap_nil, List.append_nil, List.append_assoc]
    · have hroom' : ((c.copy p b.toNat).out ++ dotted ls).length ≤ maxlen := by
        rw [List.length_append, length_copy hin]
        omega
      rw [ih hls hroom' rfl]
      -- behind a label that is not the last, `after` is at most at the next label
      obtain ⟨hlt, hnz⟩ := hrun.head hls
      congr 1
      simp only [Cursor.along, Cursor.copy, hdot, List.append_assoc, Cursor.mk.injEq, true_and,
        and_true, hnz, if_false]
      by_cases ha : c.after < c.tmp + b.toNat + 1
      · simp only [ha, hlt, lt_trans ha hlt, if_true]
      · rw [if_neg ha]

end Dietlibc.Dns
