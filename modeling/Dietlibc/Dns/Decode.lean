import Dietlibc.Dns.Name

/-!
# Where decoding stays in bounds

`Reach p maxlen w w'`: reading the labels and pointers of a name from `w` on leads to `w'`. A
place is bad if a compression pointer starts in the last byte of the message, or if the name
ends there behind a pointer when the labels have filled the buffer. `decodename` keeps its
bounds exactly when it starts at a label or pointer and no bad place is reached.
-/

namespace Dietlibc.Dns

open Relation

variable {p : Packet} {maxlen : Nat} {c c' : Cursor}

/-- Where the reader of a name stands: the name it is in starts at `limit`, `used` bytes of the
buffer are taken, and `fresh` says that a label came last. -/
@[ext]
structure Place where
  pos : Nat
  limit : Nat
  used : Nat
  fresh : Bool

/-- A label or a pointer of a name. -/
inductive Step (p : Packet) (maxlen : Nat) : Place → Place → Prop where
  | label {w : Place} {b : UInt8} : p[w.pos]? = some b → b ≠ 0 → b >>> 6 = 0 →
      w.used + b.toNat + 1 ≤ maxlen → w.pos + b.toNat + 1 < p.length →
      Step p maxlen w ⟨w.pos + b.toNat + 1, w.limit, w.used + b.toNat + 1, true⟩
  | pointer {w : Place} {b lo : UInt8} : p[w.pos]? = some b → b >>> 6 = 3 →
      p[w.pos + 1]? = some lo → pointerOfs b lo < w.limit →
      Step p maxlen w ⟨pointerOfs b lo, pointerOfs b lo, w.used, false⟩

def Reach (p : Packet) (maxlen : Nat) : Place → Place → Prop := ReflTransGen (Step p maxlen)

/-- A pointer cut off by the end of the message, or no room for the terminator. -/
def Bad (p : Packet) (maxlen : Nat) (w : Place) : Prop :=
  (∃ b, p[w.pos]? = some b ∧ b >>> 6 = 3 ∧ w.pos + 1 = p.length) ∨
    (p[w.pos]? = some 0 ∧ w.fresh = false ∧ w.used = maxlen)

/-- Where a cursor stands. -/
def Cursor.place (c : Cursor) : Place := ⟨c.tmp, c.offset, c.out.length, c.ok⟩

theorem place_copy {n : Nat} (h : c.tmp + n + 1 < p.length) :
    (c.copy p n).place = ⟨c.tmp + n + 1, c.offset, c.out.length + n + 1, true⟩ := by
  ext1
  · rfl
  · rfl
  · exact length_copy h
  · rfl

theorem step_of_turn (h : turn p maxlen c = .again c') : Step p maxlen c.place c'.place := by
  rcases turn_again h with ⟨b, lo, hb, h3, hlo, hofs, rfl⟩ | ⟨b, hb, hb0, h6, hroom, hin, rfl⟩
  · exact .pointer (w := c.place) hb h3 hlo hofs
  · rw [place_copy hin]
    exact .label (w := c.place) hb hb0 h6 hroom hin

theorem turn_of_step {w : Place} (h : Step p maxlen c.place w) :
    ∃ c', turn p maxlen c = .again c' ∧ c'.place = w := by
  generalize hw : c.place = v at h
  subst hw
  cases h with
  | label hb hb0 h6 hroom hin =>
    rename_i b
    have hroom' : ¬ maxlen < c.out.length + b.toNat + 1 := Nat.not_lt_of_le hroom
    have hin' : ¬ p.length ≤ c.tmp + b.toNat + 1 := Nat.not_le_of_lt hin
    refine ⟨c.copy p b.toNat, ?_, place_copy hin⟩
    rw [turn_label hb hb0 h6, labelTurn, if_neg hroom', if_neg hin']
  | pointer hb h3 hlo hofs =>
    rename_i b lo
    have hlo' : p[c.tmp + 1]? = some lo := hlo
    refine ⟨c.follow (pointerOfs b lo), ?_, rfl⟩
    rw [turn_pointer hb h3, pointerTurn, hlo']
    exact if_neg (Nat.not_le_of_lt hofs)

theorem turn_cut {b : UInt8} (hb : p[c.tmp]? = some b) (h3 : b >>> 6 = 3)
    (hend : c.tmp + 1 = p.length) : turn p maxlen c = .fault := by
  rw [turn_pointer hb h3, pointerTurn, List.getElem?_eq_none (by omega)]

theorem pointerTurn_fault {b : UInt8} (hc : c.tmp < p.length) (h : pointerTurn p b c = .fault) :
    c.tmp + 1 = p.length := by
  unfold pointerTurn at h
  split at h
  · rename_i hlo
    have := List.getElem?_eq_none_iff.mp hlo
    omega
  · split at h <;> cases h

theorem labelTurn_ends {n : Nat} : labelTurn p maxlen n c ≠ .stop ∧
    labelTurn p maxlen n c ≠ .fault := by
  unfold labelTurn
  split
  · exact ⟨nofun, nofun⟩
  · split <;> exact ⟨nofun, nofun⟩

/-- Inside the message, a turn that ends the loop stands at a zero, and only a pointer that is cut
off makes a fault. -/
theorem turn_ends (hc : c.tmp < p.length) :
    (turn p maxlen c = .stop → p[c.tmp]? = some 0) ∧
      (turn p maxlen c = .fault →
        ∃ b, p[c.tmp]? = some b ∧ b >>> 6 = 3 ∧ c.tmp + 1 = p.length) := by
  rcases turn_cases p maxlen c hc with hb | ⟨b, hb, h3⟩ | ⟨b, hb, h0, h6⟩ | ⟨b, -, -, -, ht⟩
  · refine ⟨fun _ => hb, fun h => ?_⟩
    rw [turn_zero hb] at h
    cases h
  · rw [turn_pointer hb h3]
    refine ⟨fun h => ?_, fun h => ⟨b, hb, h3, pointerTurn_fault hc h⟩⟩
    unfold pointerTurn at h
    split at h
    · cases h
    · split at h <;> cases h
  · rw [turn_label hb h0 h6]
    exact ⟨fun h => absurd h labelTurn_ends.1, fun h => absurd h labelTurn_ends.2⟩
  · rw [ht]
    exact ⟨nofun, nofun⟩

/-! ## Bounds -/

/-- What holds of the cursor at every turn, for a name at `start` that does not start with its
terminator. -/
structure CursorOk (p : Packet) (maxlen start : Nat) (c : Cursor) : Prop where
  tmp_lt : c.tmp < p.length
  offset_lt : c.offset < p.length
  out_le : c.out.length ≤ maxlen
  out_pos : c.ok = true → 1 ≤ c.out.length
  after_gt : start < c.after ∨ start = c.after ∧ start = c.tmp ∧ p[c.tmp]? ≠ some 0
  after_le : c.after ≤ p.length

/-- The answer stays in bounds: `-1`, or an offset behind the name and a terminated text. -/
def InBounds (p : Packet) (offset maxlen : Nat) (r : Except Fault (Int × List UInt8)) : Prop :=
  ∃ v dest, r = .ok (v, dest) ∧ dest.length ≤ maxlen ∧
    (v = -1 ∨ offset < v ∧ v ≤ p.length ∧ ∃ text, dest = text ++ [0])

/-- A turn keeps the bounds, and makes `after` pass the start. -/
theorem turn_ok {start : Nat} (hc : CursorOk p maxlen start c) (h : turn p maxlen c = .again c') :
    CursorOk p maxlen start c' := by
  obtain ⟨h1, h2, h3, -, h5, h6⟩ := hc
  have h5 : start < c.after ∨ start = c.after ∧ start = c.tmp := h5.imp_right fun h => ⟨h.1, h.2.1⟩
  rcases turn_again h with ⟨b, lo, hb, -, hlo, hofs, rfl⟩ | ⟨b, hb, hb0, -, hroom, hin, rfl⟩
  · have hlo' := lt_length hlo
    refine ⟨?_, ?_, h3, nofun, ?_, ?_⟩
    · exact lt_trans hofs h2
    · exact lt_trans hofs h2
    · left
      simp only [Cursor.follow]
      split <;> omega
    · simp only [Cursor.follow]
      split <;> omega
  · refine ⟨hin, h2, ?_, fun _ => ?_, ?_, ?_⟩
    · rw [length_copy hin]
      exact hroom
    · rw [length_copy hin]
      omega
    · left
      simp only [Cursor.copy]
      split
      · split <;> omega
      · omega
    · simp only [Cursor.copy]
      split
      · split <;> omega
      · omega

theorem finish_inBounds {start : Nat} (hp : p.length < 2 ^ 31) (hc : CursorOk p maxlen start c)
    (hb : p[c.tmp]? = some 0) :
    InBounds p start maxlen (finish maxlen c) ↔ ¬ (c.ok = false ∧ c.out.length = maxlen) := by
  have hafter : CInt.conv 32 (c.after : Int) = c.after :=
    CInt.conv_of_fits (by decide) (CInt.fits32.mpr (by have := hc.after_le; omega))
  unfold finish
  dsimp only
  rw [hafter]
  constructor
  · rintro ⟨v, dest, he, -⟩ ⟨hok, hfull⟩
    rw [hok] at he
    simp only [Bool.false_eq_true, if_false] at he
    rw [if_neg (by omega)] at he
    cases he
  · intro h
    have hlen : (if c.ok = true then c.out.dropLast else c.out).length < maxlen := by
      have h1 := hc.out_le
      have h2 := hc.out_pos
      cases hok : c.ok
      · simp only [Bool.false_eq_true, if_false]
        have : ¬ c.out.length = maxlen := fun e => h ⟨hok, e⟩
        omega
      · simp only [if_true, List.length_dropLast]
        have := h2 hok
        omega
    rw [if_pos hlen]
    refine ⟨_, _, rfl, ?_, .inr ⟨?_, ?_, _, rfl⟩⟩
    · rw [List.length_append, List.length_singleton]
      omega
    · exact_mod_cast hc.after_gt.resolve_right fun h => h.2.2 hb
    · exact_mod_cast hc.after_le

/-- The offset returned lies behind the start. -/
theorem decodeLoop_value {start : Nat} {v : Int} {dest : List UInt8} (hp : p.length < 2 ^ 31)
    (hc : CursorOk p maxlen start c) (h : decodeLoop p maxlen c = .ok (v, dest)) :
    v = -1 ∨ start < v := by
  induction c using decodeLoop.induct p maxlen with
  | case1 c c' ht ih =>
    rw [decodeLoop, ht] at h
    exact ih (turn_ok hc ht) h
  | case2 c ht =>
    have hb := (turn_ends hc.tmp_lt).1 ht
    have hafter : CInt.conv 32 (c.after : Int) = c.after :=
      CInt.conv_of_fits (by decide) (CInt.fits32.mpr (by have := hc.after_le; omega))
    have hgt := hc.after_gt.resolve_right fun h => h.2.2 hb
    rw [decodeLoop, ht] at h
    simp only [finish, hafter] at h
    split at h
    · split at h
      · obtain ⟨rfl, -⟩ := Prod.mk.inj (Except.ok.inj h)
        omega
      · cases h
    · split at h
      · obtain ⟨rfl, -⟩ := Prod.mk.inj (Except.ok.inj h)
        omega
      · cases h
  | case3 c ht =>
    rw [decodeLoop, ht] at h
    exact .inl (Prod.mk.inj (Except.ok.inj h)).1.symm
  | case4 c ht =>
    rw [decodeLoop, ht] at h
    cases h

/-- A place from which no step is made reaches itself only. -/
theorem reach_stuck {w v : Place} (h : ∀ u, ¬ Step p maxlen w u) (hr : Reach p maxlen w v) :
    v = w := by
  rcases ReflTransGen.cases_head hr with rfl | ⟨u, hs, -⟩
  · rfl
  · exact absurd hs (h u)

theorem no_step (h : ∀ c', turn p maxlen c ≠ .again c') (u : Place) : ¬ Step p maxlen c.place u := by
  intro hs
  obtain ⟨c', ht, -⟩ := turn_of_step hs
  exact h c' ht

/-- A place the loop goes on from is not bad. -/
theorem not_bad_again (ht : turn p maxlen c = .again c') : ¬ Bad p maxlen c.place := by
  rintro (⟨b, hb, h3, hend⟩ | ⟨hb, -, -⟩)
  · rw [turn_cut hb h3 hend] at ht
    cases ht
  · rw [turn_zero hb] at ht
    cases ht

/-- The places reached from a place are itself and those reached from the next. -/
theorem reach_again (ht : turn p maxlen c = .again c') :
    (∀ w, Reach p maxlen c'.place w → ¬ Bad p maxlen w) ↔
      ∀ w, Reach p maxlen c.place w → ¬ Bad p maxlen w := by
  constructor
  · intro h w hr
    rcases ReflTransGen.cases_head hr with rfl | ⟨u, hs, hr⟩
    · exact not_bad_again ht
    · obtain ⟨c1, ht1, rfl⟩ := turn_of_step hs
      rw [ht] at ht1
      cases ht1
      exact h w hr
  · intro h w hr
    exact h w (ReflTransGen.head (step_of_turn ht) hr)

/-- From any turn on, the bounds are kept exactly when no bad place is reached. -/
theorem decodeLoop_inBounds {start : Nat} (hp : p.length < 2 ^ 31)
    (hc : CursorOk p maxlen start c) : InBounds p start maxlen (decodeLoop p maxlen c) ↔
      ∀ w, Reach p maxlen c.place w → ¬ Bad p maxlen w := by
  induction c using decodeLoop.induct p maxlen with
  | case1 c c' ht ih =>
    rw [decodeLoop, ht]
    exact (ih (turn_ok hc ht)).trans (reach_again ht)
  | case2 c ht =>
    have hb := (turn_ends hc.tmp_lt).1 ht
    rw [decodeLoop, ht]
    refine (finish_inBounds hp hc hb).trans ⟨fun h w hr => ?_, fun h hfull => ?_⟩
    · cases reach_stuck (no_step fun c' h' => by rw [ht] at h'; cases h') hr
      rintro (⟨b, hb', h3, -⟩ | ⟨-, hfull⟩)
      · exact ne_zero_of_pointer h3 (Option.some.inj (hb'.symm.trans hb))
      · exact h hfull
    · exact h c.place .refl (.inr ⟨hb, hfull⟩)
  | case3 c ht =>
    rw [decodeLoop, ht]
    refine iff_of_true ⟨-1, c.out, rfl, hc.out_le, .inl rfl⟩ fun w hr => ?_
    cases reach_stuck (no_step fun c' h' => by rw [ht] at h'; cases h') hr
    rintro (⟨b, hb, h3, hend⟩ | ⟨hb, -, -⟩)
    · rw [turn_cut hb h3 hend] at ht
      cases ht
    · rw [turn_zero hb] at ht
      cases ht
  | case4 c ht =>
    rw [decodeLoop, ht]
    refine iff_of_false ?_ fun h => h c.place .refl (.inl ((turn_ends hc.tmp_lt).2 ht))
    rintro ⟨v, dest, he, -⟩
    cases he

/-- **Decoding in bounds.** The answer stays in bounds exactly when the name does not start with
its terminator and no bad place is reached. -/
theorem decodename_inBounds_iff (p : Packet) (hp : p.length < 2 ^ 31) (offset : Nat)
    (ho : offset < p.length) (maxlen : Nat) (hm : 1 ≤ maxlen) :
    InBounds p offset maxlen (decodename p offset maxlen) ↔
      p[offset]? ≠ some 0 ∧
        ∀ w, Reach p maxlen ⟨offset, offset, 0, false⟩ w → ¬ Bad p maxlen w := by
  have hfit : CInt.conv 32 (offset : Int) = offset :=
    CInt.conv_of_fits (by decide) (CInt.fits32.mpr (by omega))
  unfold decodename
  dsimp only
  rw [if_neg (by omega)]
  by_cases h0 : p[offset]? = some 0
  · -- the root: `after` stays where the name starts
    refine iff_of_false ?_ fun h => h.1 h0
    have ht : turn p maxlen ⟨offset, offset, [], offset, false⟩ = .stop := turn_zero h0
    rw [decodeLoop, ht]
    simp only [finish, Bool.false_eq_true, if_false, List.length_nil, List.nil_append, hfit]
    rw [if_pos (by omega)]
    rintro ⟨v, dest, he, -, hv⟩
    cases he
    omega
  · have hc : CursorOk p maxlen offset ⟨offset, offset, [], offset, false⟩ :=
      ⟨ho, ho, Nat.zero_le _, nofun, .inr ⟨rfl, rfl, h0⟩, le_of_lt ho⟩
    rw [decodeLoop_inBounds hp hc]
    exact ⟨fun h => ⟨h0, h⟩, fun h => h.2⟩

/-- A name of one label, with room for it. -/
theorem decodename_inBounds_label :
    InBounds [1, 97, 0] 0 3 (decodename [1, 97, 0] 0 3) ↔
      ([1, 97, 0] : Packet)[0]? ≠ some 0 ∧
        ∀ w, Reach [1, 97, 0] 3 ⟨0, 0, 0, false⟩ w → ¬ Bad [1, 97, 0] 3 w :=
  decodename_inBounds_iff [1, 97, 0] (by decide) 0 (by decide) 3 (by decide)

/-- The root name, a pointer cut off by the end of the message, and a pointer to the root behind a
label that fills the buffer. -/
theorem decodename_out_of_bounds :
    (decodename [0] 0 1 = .ok (0, [0]) ∧ ¬ InBounds [0] 0 1 (decodename [0] 0 1)) ∧
    decodename [0xc0] 0 1 = .error .read ∧
    decodename [0, 1, 97, 0xc0, 0] 1 2 = .error .write := by
  refine ⟨?_, ?_, ?_⟩
  · have he : decodename [0] 0 1 = .ok (0, [0]) := by
      have ht : turn [0] 1 ⟨0, 0, [], 0, false⟩ = .stop := by decide
      rw [decodename, if_neg (by decide), decodeLoop, ht]
      rfl
    refine ⟨he, ?_⟩
    rw [he]
    rintro ⟨v, dest, h, -, hv⟩
    cases h
    omega
  · have ht : turn [0xc0] 1 ⟨0, 0, [], 0, false⟩ = .fault := by decide
    rw [decodename, if_neg (by decide), decodeLoop, ht]
  · have h1 : turn [0, 1, 97, 0xc0, 0] 2 ⟨1, 1, [], 1, false⟩ =
        .again ⟨3, 1, [97, 46], 3, true⟩ := by decide
    have h2 : turn [0, 1, 97, 0xc0, 0] 2 ⟨3, 1, [97, 46], 3, true⟩ =
        .again ⟨0, 0, [97, 46], 5, false⟩ := by decide
    have h3 : turn [0, 1, 97, 0xc0, 0] 2 ⟨0, 0, [97, 46], 5, false⟩ = .stop := by decide
    rw [decodename, if_neg (by decide), decodeLoop, h1]
    dsimp only
    rw [decodeLoop, h2]
    dsimp only
    rw [decodeLoop, h3]
    rfl

end Dietlibc.Dns
