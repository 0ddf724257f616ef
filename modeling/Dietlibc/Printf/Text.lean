import Dietlibc.Printf.Parse

/-!
# What a conversion prints

`print_out` with its unsigned lengths, wrapped differences and chunks comes down to one text
(`outText`), and an integer conversion to `Spec.text`, a function of the sign and the magnitude
that were read.
-/

namespace Dietlibc.Printf

open Lib

variable {f : Flags} {o o' : Out} {t u s : List Char}

/-- The call completes and hands over the text `t`. -/
def Emits (r : Except (Fault × Out) Out) (o : Out) (t : List Char) : Prop :=
  ∃ o', r = .ok o' ∧ o'.chunks.flatten = o.chunks.flatten ++ t ∧ o'.len = o.len + t.length

theorem emits_ok (o : Out) : Emits (.ok o) o [] := ⟨o, rfl, by simp, rfl⟩

theorem Emits.bind {r : Except (Fault × Out) Out} {k : Out → Except (Fault × Out) Out}
    (h : Emits r o t) (hk : ∀ o', o'.len = o.len + t.length → Emits (k o') o' u) :
    Emits (r.bind k) o (t ++ u) := by
  obtain ⟨o1, rfl, hc, hl⟩ := h
  obtain ⟨o2, he, hc2, hl2⟩ := hk o1 hl
  refine ⟨o2, he, ?_, ?_⟩
  · rw [hc2, hc, List.append_assoc]
  · rw [hl2, hl, List.length_append, Nat.add_assoc]

theorem emits_bWrite (h : o.len + t.length < 2 ^ 32) : Emits (bWrite t o) o t := by
  unfold bWrite
  rw [Nat.mod_eq_of_lt h, if_neg (by omega)]
  exact ⟨_, rfl, by simp, rfl⟩

theorem flatten_padChunks (n : Nat) (c : Char) : (padChunks n c).flatten = List.replicate n c := by
  unfold padChunks
  rw [List.flatten_append, List.flatten_replicate_replicate]
  split
  · rename_i h0
    rw [List.flatten_nil, List.append_nil]
    congr 1
    omega
  · rw [List.flatten_cons, List.flatten_nil, List.append_nil, List.replicate_append_replicate]
    congr 1
    omega

/-- The padding that `write_pad` makes of an `unsigned int`. -/
def padText (n : Nat) (c : Char) : List Char :=
  if n = 0 ∨ 2 ^ 31 ≤ n then [] else List.replicate n (if c = '0' then '0' else ' ')

theorem emits_writePad {n : Nat} {c : Char} (h : o.len + (padText n c).length < 2 ^ 32) :
    Emits (writePad n c o) o (padText n c) := by
  unfold writePad padText at *
  split
  · exact emits_ok o
  · rename_i hn
    rw [if_neg hn, List.length_replicate] at h
    rw [Nat.mod_eq_of_lt h, if_neg (by omega)]
    exact ⟨_, rfl, by simp [flatten_padChunks], by simp⟩

theorem emits_writePadIf {b : Bool} {n : Nat} {c : Char}
    (h : o.len + (if b then padText n c else []).length < 2 ^ 32) :
    Emits (writePadIf b n c o) o (if b then padText n c else []) := by
  cases b with
  | true => exact emits_writePad h
  | false => exact emits_ok o

/-- The difference `width-preci`, after `width` was reduced and perhaps replaced. -/
theorem padText_width {dot : Bool} {w todo p preci : Nat} {c : Char} (hw : w ≤ maxWidth)
    (ht : todo ≤ 2) (hp : p ≤ maxWidth) (hc : c = ' ' ∨ c = '0') (hd : dot = true → preci = p) :
    padText (CInt.usub 32 (if dot ∧ CInt.usub 32 w todo = 0 then preci
      else CInt.usub 32 w todo) p) c = List.replicate (w - (todo + p)) c := by
  have hcc : (if c = '0' then '0' else ' ') = c := by
    rcases hc with rfl | rfl <;> rfl
  unfold padText
  rw [hcc]
  unfold maxWidth at hw hp
  by_cases hle : todo + p < w
  · have h1 : CInt.usub 32 w todo = w - todo := CInt.usub_of_le (by omega) (by omega)
    have h2 : CInt.usub 32 (w - todo) p = w - todo - p := CInt.usub_of_le (by omega) (by omega)
    have h0 : ¬ (dot = true ∧ w - todo = 0) := fun h => by omega
    rw [h1, if_neg h0, h2, if_neg (by omega), Nat.sub_sub]
  · rw [show w - (todo + p) = 0 by omega, List.replicate_zero, if_pos]
    unfold CInt.usub
    split
    · rename_i h
      rw [hd h.1]
      omega
    · omega

theorem padText_preci {p n : Nat} (hp : p ≤ maxWidth) (hn : n ≤ maxWidth) :
    padText (CInt.usub 64 p n % 2 ^ 32) '0' = List.replicate (p - n) '0' := by
  unfold padText CInt.usub
  unfold maxWidth at hp hn
  by_cases hle : n < p
  · rw [if_neg (by omega)]
    simp only [if_true]
    congr 1
    omega
  · rw [if_pos (by omega), show p - n = 0 by omega, List.replicate_zero]

/-- How the padding `q` stands to the sign or prefix `a` and the digits `d`. -/
def arrange (left : Bool) (padwith : Char) (q : Nat) (a d : List Char) : List Char :=
  if left then a ++ d ++ List.replicate q padwith
  else if padwith = ' ' then List.replicate q ' ' ++ a ++ d
  else a ++ List.replicate q '0' ++ d

/-- The text of `print_out`. -/
def outText (f : Flags) (todo : Nat) (s : List Char) : List Char :=
  let d := s.drop todo
  let p := if f.dot then f.preci else d.length
  arrange f.left f.padwith (f.width - (todo + p)) (s.take todo)
    (List.replicate (p - d.length) '0' ++ d)

theorem length_arrange (left : Bool) (c : Char) (q : Nat) (a d : List Char) :
    (arrange left c q a d).length = a.length + d.length + q := by
  unfold arrange
  split
  · simp [Nat.add_assoc]
  · split <;> (simp; omega)

/-- What `todo` is set to. -/
def todoOf (f : Flags) (inSign : Bool) : Nat :=
  if 0 < f.hash then f.hash.toNat else if inSign then 1 else 0

/-- Lengths with which nothing wraps. -/
structure Fits (f : Flags) (todo : Nat) (s : List Char) : Prop where
  width : f.width ≤ maxWidth
  preci : f.preci ≤ maxWidth
  todo_le : todo ≤ 2
  todo_len : todo ≤ s.length
  len : s.length ≤ 200
  pad : f.padwith = ' ' ∨ f.padwith = '0'

theorem outText_plain {todo : Nat} (h : f.width = 0 ∧ f.preci = 0) :
    outText f todo s = s := by
  have hz : (if f.dot then f.preci else (s.drop todo).length) - (s.drop todo).length = 0 := by
    split <;> omega
  unfold outText arrange
  simp only [hz, h.1, Nat.zero_sub, List.replicate_zero, List.append_nil, List.nil_append,
    List.take_append_drop, ite_self]

theorem printOut_emits {inSign : Bool} (hf : Fits f (todoOf f inSign) s) (ho : o.len ≤ 2 ^ 31) :
    Emits (printOut f inSign '0' s o) o (outText f (todoOf f inSign) s) := by
  obtain ⟨hw, hp, ht2, htl, hl, hc⟩ := hf
  unfold printOut
  rw [← todoOf]
  generalize todoOf f inSign = todo at *
  split
  · rename_i h0
    rw [outText_plain h0]
    exact emits_bWrite (by omega)
  · dsimp only
    have hdl : (s.drop todo).length ≤ 200 := by rw [List.length_drop]; omega
    have hmod : (s.drop todo).length % 2 ^ 32 = (s.drop todo).length := Nat.mod_eq_of_lt (by omega)
    rw [hmod]
    have hP : (if f.dot then f.preci else (s.drop todo).length) ≤ maxWidth := by
      unfold maxWidth at *
      split <;> omega
    unfold outText
    dsimp only
    have hdot : f.dot = true → f.preci = if f.dot then f.preci else (s.drop todo).length :=
      fun h => by rw [if_pos h]
    generalize (if f.dot then f.preci else (s.drop todo).length) = P at *
    have hq := padText_width hw ht2 hP hc hdot
    have hz := padText_preci hP (show (s.drop todo).length ≤ maxWidth by unfold maxWidth; omega)
    have hql : f.width - (todo + P) ≤ 10240 := by unfold maxWidth at hw; omega
    have hzl : P - (s.drop todo).length ≤ 10240 := by unfold maxWidth at hP; omega
    generalize CInt.usub 32 _ P = n at *
    generalize f.width - (todo + P) = q at *
    have hpad : ∀ (b : Bool) (o : Out), o.len + 10240 < 2 ^ 32 →
        Emits (writePadIf b n f.padwith o) o (if b then List.replicate q f.padwith else []) := by
      intro b o ho
      rw [← hq]
      refine emits_writePadIf ?_
      rw [hq]
      cases b
      · simp only [Bool.false_eq_true, if_false, List.length_nil]
        omega
      · simp only [if_true, List.length_replicate]
        omega
    have hlen : ∀ b : Bool, (if b then List.replicate q f.padwith else []).length ≤ 10240 := by
      intro b
      cases b <;> simp [hql]
    have hsign : ∀ o : Out, o.len + 10 < 2 ^ 32 →
        Emits (if todo = 0 then .ok o else bWrite (s.take todo) o) o (s.take todo) := by
      intro o ho
      split
      · rename_i h0
        rw [h0, List.take_zero]
        exact emits_ok o
      · exact emits_bWrite (by rw [List.length_take]; omega)
    have h1 := hlen (!f.left && f.padwith = ' ')
    have h3 := hlen (!f.left && f.padwith ≠ ' ')
    have htk : (s.take todo).length ≤ 2 := by rw [List.length_take]; omega
    have key := Emits.bind (hpad (!f.left && f.padwith = ' ') o (by omega)) fun o1 e1 =>
      Emits.bind (hsign o1 (by omega)) fun o2 e2 =>
      Emits.bind (hpad (!f.left && f.padwith ≠ ' ') o2 (by omega)) fun o3 e3 =>
      Emits.bind (by rw [← hz]; exact emits_writePad (by rw [hz, List.length_replicate]; omega) :
        Emits (writePad (CInt.usub 64 P (s.drop todo).length % 2 ^ 32) '0' o3) o3
          (List.replicate (P - (s.drop todo).length) '0')) fun o4 e4 =>
      Emits.bind (emits_bWrite (t := s.drop todo) (by rw [List.length_replicate] at e4; omega)) fun o5 e5 =>
      hpad f.left o5 (by rw [List.length_replicate] at e4; omega)
    convert key using 1
    unfold arrange
    cases f.left
    · rcases hc with hc | hc <;> simp [hc]
    · simp

/-! ## Numbers -/

theorem ltostrLoop_eq {base : Nat} (hb : 1 < base) (up : Bool) {room i : Nat} (hi : i < base ^ room)
    (acc : List Char) : ltostrLoop base up room i acc =
      ((Nat.digits base i).map (digitChar up)).reverse ++ acc := by
  induction room generalizing i acc with
  | zero =>
    rw [Nat.pow_zero, Nat.lt_one_iff] at hi
    simp [ltostrLoop, hi]
  | succ room ih =>
    unfold ltostrLoop
    split
    · rename_i h0
      simp [h0]
    · rename_i h0
      rw [ih (Nat.div_lt_of_lt_mul (by rw [Nat.pow_succ, Nat.mul_comm] at hi; exact hi)),
        Nat.digits_def' hb (Nat.pos_of_ne_zero h0)]
      simp

theorem ltostr_eq {base i : Nat} (hb : 1 < base) (hb' : base ≤ 36) (hi : i < 2 ^ 64) (up : Bool) :
    ltostr 123 i base up = numeral base up i := by
  have hlt : i < base ^ 122 := lt_of_lt_of_le hi
    (le_trans (Nat.pow_le_pow_right (by decide) (by decide)) (Nat.pow_le_pow_left hb 122))
  have hbase : ¬ (base = 0 ∨ 36 < base) := by omega
  unfold ltostr numeral
  dsimp only
  rw [if_neg hbase]
  split
  · rfl
  · rw [ltostrLoop_eq hb up hlt, List.append_nil]

theorem length_numeral {base i : Nat} (hb : 1 < base) (hi : i < 2 ^ 64) (up : Bool) :
    1 ≤ (numeral base up i).length ∧ (numeral base up i).length ≤ 64 := by
  unfold numeral
  split
  · simp
  · rename_i h0
    have hlt : i < base ^ 64 := lt_of_lt_of_le hi (Nat.pow_le_pow_left hb 64)
    have hle := (Nat.digits_length_le_iff hb i).mpr hlt
    have hne : Nat.digits base i ≠ [] := Nat.digits_ne_nil_iff_ne_zero.mpr h0
    simp only [List.length_reverse, List.length_map]
    exact ⟨List.length_pos_iff.mpr hne, hle⟩

theorem digitChar_eq_zero {up : Bool} {d : Nat} (hd : d < 36) (h : digitChar up d = '0') : d = 0 := by
  revert up d
  decide

theorem numeral_eq_zero {base i : Nat} (hb : 1 < base) (hb' : base ≤ 36) {up : Bool} :
    numeral base up i = ['0'] ↔ i = 0 := by
  constructor
  · intro h
    by_contra h0
    rw [numeral, if_neg h0, List.reverse_eq_iff, List.reverse_singleton,
      List.map_eq_singleton_iff] at h
    obtain ⟨d, hd, hc⟩ := h
    have hlt : d < base := Nat.digits_lt_base hb (by rw [hd]; simp)
    have hd0 := digitChar_eq_zero (by omega) hc
    have hof := Nat.ofDigits_digits base i
    rw [hd, hd0] at hof
    simp at hof
    omega
  · rintro rfl
    rfl

/-- The text of `num_printf` for digits that were read. -/
def numText (f : Flags) (inSign neg : Bool) (pre digits : List Char) : List Char :=
  let gone := f.dot = true ∧ digits = ['0']
  let sg := if neg then ['-'] else if inSign ∧ (f.sign ∨ f.space) then [if f.sign then '+' else ' ']
    else []
  let a := sg ++ if gone then [] else pre
  let d := if gone then [] else digits
  let p := if f.dot then f.preci else d.length
  arrange f.left f.padwith (f.width - (a.length + p)) a (List.replicate (p - d.length) '0' ++ d)

theorem outText_append (f : Flags) (a d : List Char) :
    outText f a.length (a ++ d) = arrange f.left f.padwith
      (f.width - (a.length + if f.dot then f.preci else d.length)) a
      (List.replicate ((if f.dot then f.preci else d.length) - d.length) '0' ++ d) := by
  unfold outText
  simp only [List.drop_left, List.take_left]

/-- The prefix in `buf` is as long as `flag_hash` says, and a signed conversion has none. -/
structure PrefixOk (f : Flags) (inSign neg : Bool) (pre : List Char) : Prop where
  hash : (if 0 < f.hash then f.hash.toNat else 0) = pre.length
  len : pre.length ≤ 2
  sign : inSign = true → pre = []
  neg : neg = true → inSign = true

theorem numOut_emits {inSign neg : Bool} {pre digits : List Char} (hp : PrefixOk f inSign neg pre)
    (hw : f.width ≤ maxWidth) (hpr : f.preci ≤ maxWidth) (hd : digits.length ≤ 64)
    (hpad : f.padwith = ' ' ∨ f.padwith = '0') (ho : o.len ≤ 2 ^ 31) :
    Emits (numOut f inSign neg pre digits o) o (numText f inSign neg pre digits) := by
  obtain ⟨hhash, hlen, hsign, hneg⟩ := hp
  -- the variables at `print_out`, whatever the sign
  have hout : ∀ (g : Flags) (b : Bool) (a d : List Char), g.left = f.left → g.dot = f.dot →
      g.padwith = f.padwith → g.width = f.width → g.preci = f.preci → todoOf g b = a.length →
      a.length ≤ 2 → d.length ≤ 64 → Emits (printOut g b '0' (a ++ d) o) o
        (arrange f.left f.padwith (f.width - (a.length + if f.dot then f.preci else d.length)) a
          (List.replicate ((if f.dot then f.preci else d.length) - d.length) '0' ++ d)) := by
    intro g b a d h1 h2 h3 h4 h5 ht ha hd
    have he : Emits (printOut g b '0' (a ++ d) o) o (outText g (todoOf g b) (a ++ d)) :=
      printOut_emits ⟨h4 ▸ hw, h5 ▸ hpr, by omega, by simp [ht], by simp; omega, h3 ▸ hpad⟩ ho
    rw [ht, outText_append, h1, h2, h3, h4, h5] at he
    exact he
  unfold numOut numText
  dsimp only
  by_cases hz : f.dot = true ∧ digits = ['0']
  · have hbody : (if f.preci = 0 ∨ 0 < f.hash then [] else pre) = [] := by
      split
      · rfl
      · rename_i h
        rw [if_neg (fun h' => h (.inr h'))] at hhash
        exact List.length_eq_zero_iff.mp hhash.symm
    rw [if_pos hz, if_pos hz, if_pos hz, if_pos hz, hbody]
    split
    · exact hout { f with hash := 0 } true ['-'] [] rfl rfl rfl rfl rfl rfl (by simp) (by simp)
    · split
      · exact hout { f with hash := 0 } true [_] [] rfl rfl rfl rfl rfl rfl (by simp) (by simp)
      · exact hout { f with hash := 0 } false [] [] rfl rfl rfl rfl rfl rfl (by simp) (by simp)
  · rw [if_neg hz, if_neg hz, if_neg hz, if_neg hz]
    have htrue : inSign = true → todoOf f true = 1 := by
      intro hs
      rw [hsign hs] at hhash
      unfold todoOf
      split
      · rename_i h
        rw [if_pos h, List.length_nil] at hhash
        omega
      · rfl
    split
    · rename_i hn
      rw [hsign (hneg hn)]
      exact hout f true ['-'] digits rfl rfl rfl rfl rfl (htrue (hneg hn)) (by simp) hd
    · split
      · rename_i hs
        rw [hsign hs.1]
        exact hout f true [_] digits rfl rfl rfl rfl rfl (htrue hs.1) (by simp) hd
      · refine hout f false pre digits rfl rfl rfl rfl rfl ?_ hlen hd
        rw [← hhash]
        rfl

/-! ## Conversions -/

/-- The prefix that `#` puts into `buf`. -/
def altChars (alt : Bool) (c : Conv) : List Char :=
  match alt, c with
  | true, .x => ['0', 'x']
  | true, .X => ['0', 'X']
  | true, .o => ['0']
  | _, _ => []

/-- `flag_hash` at `num_printf`. -/
def hashNum (alt : Bool) (c : Conv) : Int :=
  match alt, c with
  | true, .x | true, .X => 2
  | true, .o => 1
  | true, _ => -1
  | false, _ => 0

/-- `width` at `num_printf`, which `x` and `X` raise to the precision. -/
def hexWidth (c : Conv) (width preci : Nat) : Nat :=
  match c with
  | .x | .X => if width < preci then preci else width
  | _ => width

def Spec.altText (s : Spec) : List Char := altChars s.alt s.conv

/-- The sign. -/
def Spec.signText (s : Spec) (neg : Bool) : List Char :=
  if s.conv.signed then
    if neg then ['-']
    else if Flag.plus ∈ s.flags then ['+']
    else if Flag.space ∈ s.flags then [' ']
    else []
  else []

/-- The sign and magnitude the code reads for `v`. -/
def Spec.seen (s : Spec) (v : Int) : Bool × Nat :=
  readNumber s.read s.conv.signed (v % 2 ^ 64).toNat

/-- The text printed for a sign and a magnitude. -/
def Spec.text (s : Spec) (neg : Bool) (mag : Nat) : List Char :=
  let gone := s.prec.given = true ∧ mag = 0
  let a := s.signText neg ++ if gone then [] else s.altText
  let d := if gone then [] else numeral s.conv.base s.conv.upper mag
  let p := if s.prec.given then s.prec.read else d.length
  arrange s.left (if padZero s.flags then '0' else ' ') (s.width.value - (a.length + p)) a
    (List.replicate (p - d.length) '0' ++ d)

theorem Conv.base_ok (c : Conv) : 1 < c.base ∧ c.base ≤ 16 := by
  cases c <;> decide

theorem Width.value_le {w : Width} (h : w.Ok) : w.value ≤ maxWidth := by
  cases w with
  | none => exact Nat.zero_le _
  | digits ds => exact h.2.2.2
  | star n =>
    obtain ⟨h1, h2⟩ := h
    simp only [Width.value]
    omega

theorem Prec.read_le {p : Prec} (h : p.Ok) : p.read ≤ maxWidth := by
  cases p with
  | none => exact Nat.zero_le _
  | digits ds => exact h.2
  | star n =>
    obtain ⟨h1, h2⟩ := h
    simp only [Prec.read]
    omega

theorem toNat_emod_lt (x : Int) : (x % 2 ^ 64).toNat < 2 ^ 64 := by
  omega

theorem readNumber_lt (f : Flags) (b : Bool) (w : Nat) : (readNumber f b w).2 < 2 ^ 64 :=
  toNat_emod_lt _

theorem readNumber_neg {f : Flags} {b : Bool} {w : Nat} (h : (readNumber f b w).1 = true) :
    b = true := by
  unfold readNumber at h
  exact (Bool.and_eq_true_iff.mp h).1

/-- The variables of `num_printf`, after the letter was looked at. -/
def Spec.numFlags (s : Spec) : Flags :=
  { s.read with
    hash := hashNum s.alt s.conv
    width := hexWidth s.conv s.width.value s.prec.read }

theorem altChars_length (alt : Bool) (c : Conv) :
    (if 0 < hashNum alt c then (hashNum alt c).toNat else 0) = (altChars alt c).length := by
  cases alt <;> cases c <;> rfl

theorem altChars_le (alt : Bool) (c : Conv) : (altChars alt c).length ≤ 2 := by
  cases alt <;> cases c <;> decide

theorem altChars_signed (alt : Bool) {c : Conv} (h : c.signed = true) : altChars alt c = [] := by
  cases alt <;> cases c <;> first | rfl | cases h

theorem hexWidth_le {c : Conv} {w p : Nat} (hw : w ≤ maxWidth) (hp : p ≤ maxWidth) :
    hexWidth c w p ≤ maxWidth := by
  unfold hexWidth
  split
  · split <;> assumption
  · split <;> assumption
  · exact hw

/-- Raising the width to the precision changes no padding. -/
theorem hexWidth_sub (c : Conv) (w p n : Nat) : hexWidth c w p - (n + p) = w - (n + p) := by
  unfold hexWidth
  split
  · split <;> omega
  · split <;> omega
  · rfl

theorem hexWidth_zero (c : Conv) (w : Nat) : hexWidth c w 0 = w := by
  cases c <;> rfl

theorem numPrintf_emits {s : Spec} (hs : s.Ok) {v : Int} (ho : o.len ≤ 2 ^ 31) :
    Emits (numOut s.numFlags s.conv.signed (s.seen v).1 s.altText
      (ltostr 123 (s.seen v).2 s.conv.base s.conv.upper) o) o
      (s.text (s.seen v).1 (s.seen v).2) := by
  obtain ⟨hb, hb16⟩ := s.conv.base_ok
  have hb' : s.conv.base ≤ 36 := by omega
  have hlt : (s.seen v).2 < 2 ^ 64 := readNumber_lt _ _ _
  have hneg : (s.seen v).1 = true → s.conv.signed = true := readNumber_neg
  have hw := Width.value_le hs.width
  have hp := Prec.read_le hs.prec
  generalize s.seen v = nm at *
  obtain ⟨neg, mag⟩ := nm
  dsimp only at *
  rw [ltostr_eq hb hb' hlt]
  have hnl := (length_numeral hb hlt s.conv.upper).2
  have hpre : PrefixOk s.numFlags s.conv.signed neg s.altText := by
    exact ⟨altChars_length _ _, altChars_le _ _, altChars_signed _, hneg⟩
  have hwidth : s.numFlags.width ≤ maxWidth := hexWidth_le hw hp
  have hpad : s.numFlags.padwith = ' ' ∨ s.numFlags.padwith = '0' := by
    simp only [Spec.numFlags, Spec.read]
    split
    · exact .inr rfl
    · exact .inl rfl
  have he := numOut_emits hpre hwidth hp hnl hpad ho
  have hsg : (if neg then ['-'] else if s.conv.signed ∧ (s.numFlags.sign ∨ s.numFlags.space) then
      [if s.numFlags.sign then '+' else ' '] else []) = s.signText neg := by
    simp only [Spec.numFlags, Spec.read, Spec.signText]
    cases neg
    · cases s.conv.signed <;> by_cases h1 : Flag.plus ∈ s.flags <;>
        by_cases h2 : Flag.space ∈ s.flags <;> simp [h1, h2]
    · simp [hneg rfl]
  have hq : ∀ n k : Nat, s.numFlags.width - (n + if s.prec.given then s.prec.read else k) =
      s.width.value - (n + if s.prec.given then s.prec.read else k) := by
    intro n k
    have hnone : s.prec.given = false → s.prec.read = 0 := by
      cases s.prec <;> simp [Prec.given, Prec.read]
    simp only [Spec.numFlags]
    cases hg : s.prec.given
    · rw [hnone hg, hexWidth_zero]
    · simp only [if_true, hexWidth_sub]
  convert he using 1
  unfold Spec.text numText
  dsimp only
  rw [hsg]
  simp only [numeral_eq_zero hb hb']
  exact congrArg (fun q => arrange _ _ q _ _) (hq _ _).symm

/-- The cases of the letters, down to `num_printf`. -/
theorem convert_num (c : Conv) (alt : Bool) {f : Flags} (hf : f.hash = if alt then -1 else 0)
    (args : List Arg) (o : Out) :
    convert c.char f args o = numPrintf c.base c.upper c.signed (altChars alt c)
      { f with hash := hashNum alt c, width := hexWidth c f.width f.preci } args o := by
  obtain ⟨pw, hash, l, sp, sg, dot, long, w, p⟩ := f
  dsimp only at hf
  subst hf
  cases alt <;> cases c <;> rfl

theorem convert_eq (s : Spec) (v : Int) (o : Out) :
    convert s.conv.char s.read [slot v] o =
      (numOut s.numFlags s.conv.signed (s.seen v).1 s.altText
        (ltostr 123 (s.seen v).2 s.conv.base s.conv.upper) o).map fun o => ([], o) := by
  rw [convert_num s.conv s.alt rfl]
  rfl

theorem vPrintf_nil (args : List Arg) (o : Out) : vPrintf [] args o = .ok o := by
  rw [vPrintf]
  rfl

theorem vPrintf_conv {tail rest : List Char} {args as as' : List Arg} {ch : Char}
    (hin : innPrintf .init tail args = .ok (ch, f, rest, as))
    (hconv : convert ch f as o = .ok (as', o')) :
    vPrintf ('%' :: tail) args o = vPrintf rest as' o' := by
  have htake : ('%' :: tail).takeWhile (· ≠ '%') = [] := by simp
  have hdrop : ('%' :: tail).dropWhile (· ≠ '%') = '%' :: tail := by simp
  rw [vPrintf]
  simp only [htake, if_true]
  split
  · rename_i hf
    rw [hdrop] at hf
    cases hf
  · rename_i c format' hf
    rw [hdrop] at hf
    obtain ⟨rfl, rfl⟩ := List.cons.inj hf
    split
    · rename_i he
      rw [hin] at he
      cases he
    · rename_i he
      rw [hin] at he
      cases he
      simp only [hconv]

/-- **What an integer conversion prints.** -/
theorem printed_eq {s : Spec} (hs : s.Ok) (v : Int) :
    printed s.format (s.args v) = some (s.text (s.seen v).1 (s.seen v).2) := by
  obtain ⟨o', he, hc, -⟩ := numPrintf_emits hs (v := v) (o := ⟨0, []⟩) (by decide)
  have hconv := convert_eq s v ⟨0, []⟩
  rw [he] at hconv
  have hv := (vPrintf_conv (innPrintf_spec hs v) hconv).trans (vPrintf_nil _ _)
  unfold printed
  rw [show s.format = '%' :: s.format.tail from rfl, hv]
  exact congrArg some hc

end Dietlibc.Printf
