import Dietlibc.Iconv.Convert

/-!
# One turn of the loop

`encoded` are the bytes that a character has in a charset. `step_end` says what a turn of the loop
can do: it is over, a read or a write is a fault, the character fails, or its bytes are stored and
the positions move on.
-/

namespace Dietlibc.Iconv

open Machine

variable {obj : List UInt8} {cap : Nat} {s s' : St} {o o' : Out} {v : Nat}

/-! ## What is stored -/

/-- The bytes of a character; the first one in UTF-16 has a byte order mark. -/
def encoded (dst : Charset) (v : Nat) : List UInt8 :=
  match dst with
  | .iso88591 => [lo v]
  | .ucs2 => [hi v, lo v]
  | .ucs4 => [lo (v / 2 ^ 23), lo (v / 2 ^ 16), lo (v / 2 ^ 8), lo v]
  | .utf8 =>
    ((utf8Form v).2.1 ||| UInt8.ofNat (v / 2 ^ (utf8Form v).1)) ::
      utf8Tail v ((utf8Form v).2.2 - 1) (utf8Form v).1
  | .utf16 => [0xff, 0xfe] ++ unit16 false v
  | .utf16le => unit16 false v
  | .utf16be => unit16 true v

/-- `to` behind a character. -/
def Charset.after : Charset → Charset
  | .utf16 => .utf16le
  | c => c

/-- `result` counts the character. -/
def lossy (dst : Charset) (v : Nat) : Bool :=
  match dst with
  | .iso88591 => decide (0xff < v)
  | .ucs2 => decide (0xffff < v)
  | .ucs4 => false
  | .utf8 => false
  | _ => decide (0xffff < v) && decide (0xfffff < v - 0x10000)

/-- The character has been stored. -/
structure Stored (o o' : Out) (v : Nat) : Prop where
  dst : o'.dst = o.dst.after
  pos : o'.pos = o.pos + (encoded o.dst v).length
  left : o'.left + (encoded o.dst v).length = o.left
  buf : o'.buf = o.buf.store o.pos (encoded o.dst v)
  result : o'.result = if lossy o.dst v then o.result + 1 else o.result

/-- What an encoder comes to, if there is room for all of `*outbytesleft`. -/
inductive EncodeEnd (cap : Nat) (o : Out) (v : Nat) : Encoding → Prop where
  | fault (hdst : o.dst = .utf8) (hleft : o.left = 0) (hcap : o.pos = cap) : EncodeEnd cap o v .fault
  | bloat (o' : Out) (hroom : o.left < (encoded o.dst v).length)
      (hwrite : o.dst = .utf8 → o.pos < cap)
      (hleft : o'.left + (if o.dst = .utf16 ∧ 4 ≤ o.left then 2 else 0) = o.left) :
      EncodeEnd cap o v (.bloat o')
  | stored (o' : Out) (h : Stored o o' v) : EncodeEnd cap o v (.stored o')

theorem length_utf8Tail (v n bits : Nat) : (utf8Tail v n bits).length = n := by
  induction n generalizing bits with
  | zero => rfl
  | succ n ih => rw [utf8Tail, List.length_cons, ih]

theorem utf8Form_pos (v : Nat) : 1 ≤ (utf8Form v).2.2 ∧ (utf8Form v).2.2 ≤ 6 := by
  unfold utf8Form
  split
  · decide
  split
  · decide
  split
  · decide
  split
  · decide
  split <;> decide

theorem length_unit16 (be : Bool) (v : Nat) :
    (unit16 be v).length = if 0xffff < v then 4 else 2 := by
  unfold unit16 bytes16
  cases be <;> split <;> rfl

/-- A character takes 1 to 6 bytes. -/
theorem length_encoded (dst : Charset) (v : Nat) :
    1 ≤ (encoded dst v).length ∧ (encoded dst v).length ≤ 6 := by
  have h8 := utf8Form_pos v
  have h16 (be : Bool) := length_unit16 be v
  cases dst with
  | utf8 =>
    rw [encoded, List.length_cons, length_utf8Tail]
    omega
  | utf16 =>
    rw [encoded, List.length_append, h16]
    split <;> decide
  | utf16le =>
    rw [encoded, h16]
    split <;> decide
  | utf16be =>
    rw [encoded, h16]
    split <;> decide
  | _ => simp [encoded]

/-- The charsets whose bytes are stored by `put` alone. -/
theorem put_end (d : List UInt8) (l : Bool) (hcap : o.pos + o.left ≤ cap)
    (hd : d = encoded o.dst v) (hl : l = lossy o.dst v) (hdst : o.dst ≠ .utf16)
    (hdst8 : o.dst ≠ .utf8) : EncodeEnd cap o v (o.put cap d l) := by
  unfold Out.put
  split
  · rename_i hroom
    refine .bloat o (by rw [← hd]; exact hroom) (fun h => absurd h hdst8) ?_
    rw [if_neg fun h => hdst h.1]
    rfl
  · rw [if_pos (by omega)]
    have hafter : o.dst.after = o.dst := by
      unfold Charset.after
      split
      · rename_i h
        exact absurd h hdst
      · rfl
    refine .stored _ ⟨hafter.symm, by rw [← hd], ?_, by rw [← hd], by rw [hl]⟩
    rw [← hd]
    dsimp only
    omega

theorem encodeUtf8_end (hcap : o.pos + o.left ≤ cap) (hdst : o.dst = .utf8) :
    EncodeEnd cap o v (encodeUtf8 cap o v) := by
  have hform := utf8Form_pos v
  have hlen : (encoded .utf8 v).length = (utf8Form v).2.2 := by
    rw [encoded, List.length_cons, length_utf8Tail]
    omega
  unfold encodeUtf8
  dsimp only
  split
  · rename_i hpos
    split
    · rename_i hroom
      refine .bloat _ (by rw [hdst, hlen]; exact hroom) (fun _ => hpos) ?_
      rw [if_neg fun h => by rw [hdst] at h; cases h.1]
      rfl
    · rw [if_pos (by omega)]
      refine .stored _ ⟨by rw [hdst]; rfl, by rw [hdst, hlen], ?_, ?_, by rw [hdst]; rfl⟩
      · rw [hdst, hlen]
        exact Nat.sub_add_cancel (by omega)
      · rw [hdst]
        exact Mem.store_append [_] _
  · exact .fault hdst (by omega) (by omega)

/-- **What an encoder does.** -/
theorem encode_end (hcap : o.pos + o.left ≤ cap) : EncodeEnd cap o v (encode cap o v) := by
  unfold encode
  split <;> rename_i hdst
  · exact put_end _ _ hcap (by rw [hdst]; rfl) (by rw [hdst]; rfl) (by rw [hdst]; intro h; cases h)
      (by rw [hdst]; intro h; cases h)
  · exact put_end _ _ hcap (by rw [hdst]; rfl) (by rw [hdst]; rfl) (by rw [hdst]; intro h; cases h)
      (by rw [hdst]; intro h; cases h)
  · exact put_end _ _ hcap (by rw [hdst]; rfl) (by rw [hdst]; rfl) (by rw [hdst]; intro h; cases h)
      (by rw [hdst]; intro h; cases h)
  · exact encodeUtf8_end hcap hdst
  · have hlen : (encoded .utf16 v).length = 2 + (unit16 false v).length := by
      rw [encoded, List.length_append]
      rfl
    have hunit := length_unit16 false v
    split
    · rename_i hroom
      refine .bloat o ?_ (fun h => by rw [hdst] at h; cases h) ?_
      · rw [hdst, hlen, hunit]
        split <;> omega
      · rw [if_neg fun h => absurd hroom (Nat.not_lt_of_le h.2)]
        rfl
    · rename_i hroom
      rw [if_pos (by omega)]
      unfold encodeUtf16 Out.put
      dsimp only
      split
      · rename_i hroom'
        refine .bloat _ (by rw [hdst, hlen]; omega) (fun h => by rw [hdst] at h; cases h) ?_
        rw [if_pos ⟨hdst, by omega⟩]
        dsimp only
        omega
      · rename_i hroom'
        rw [if_pos (by omega)]
        refine .stored _ ⟨by rw [hdst]; rfl, ?_, ?_, ?_, by rw [hdst]; rfl⟩
        · rw [hdst, hlen]
          dsimp only
          omega
        · rw [hdst, hlen]
          dsimp only
          omega
        · rw [hdst]
          exact Mem.store_append [0xff, 0xfe] _
  · exact put_end _ _ hcap (by rw [hdst]; rfl) (by rw [hdst]; rfl) (by rw [hdst]; intro h; cases h)
      (by rw [hdst]; intro h; cases h)
  · exact put_end _ _ hcap (by rw [hdst]; rfl) (by rw [hdst]; rfl) (by rw [hdst]; intro h; cases h)
      (by rw [hdst]; intro h; cases h)

/-! ## What is read -/

/-- The value of the continuation bytes behind `v`. -/
def contValue (v : Nat) (cs : List UInt8) : Nat :=
  cs.foldl (fun v b => (v * 64 + b.toNat % 64) % 2 ^ 32) v

/-- A run of continuation bytes, and what stands behind it. -/
theorem cont_split (p : List UInt8) : (∀ b ∈ p, isCont b = true) ∨
    ∃ cs x t, p = cs ++ x :: t ∧ (∀ b ∈ cs, isCont b = true) ∧ isCont x = false := by
  induction p with
  | nil => exact .inl nofun
  | cons b p ih =>
    by_cases hb : isCont b = true
    · rcases ih with h | ⟨cs, x, t, rfl, hcs, hx⟩
      · exact .inl (List.forall_mem_cons.mpr ⟨hb, h⟩)
      · exact .inr ⟨b :: cs, x, t, rfl, List.forall_mem_cons.mpr ⟨hb, hcs⟩, hx⟩
    · exact .inr ⟨[], b, p, rfl, nofun, by simpa using hb⟩

variable {left i : Nat} {cs t : List UInt8} {x : UInt8}

theorem utf8Cont_char (hcs : ∀ b ∈ cs, isCont b = true) (hx : isCont x = false)
    (hi : i + cs.length ≤ left + 1) :
    utf8Cont left v i (cs ++ x :: t) = .char (contValue v cs) (i + cs.length) .utf8 0 := by
  induction cs generalizing v i with
  | nil =>
    rw [List.nil_append, utf8Cont, if_neg (by rw [hx]; exact Bool.false_ne_true)]
    rfl
  | cons b cs ih =>
    rw [List.length_cons] at hi ⊢
    rw [List.cons_append, utf8Cont, if_pos (hcs b List.mem_cons_self), if_neg (by omega),
      ih (fun c hc => hcs c (List.mem_cons_of_mem b hc)) (by omega), Nat.add_assoc i 1,
      Nat.add_comm 1]
    rfl

theorem utf8Cont_fault (hcs : ∀ b ∈ cs, isCont b = true) (hi : i + cs.length ≤ left + 1) :
    utf8Cont left v i cs = .fault := by
  induction cs generalizing v i with
  | nil => rfl
  | cons b cs ih =>
    rw [List.length_cons] at hi
    rw [utf8Cont, if_pos (hcs b List.mem_cons_self), if_neg (by omega),
      ih (fun c hc => hcs c (List.mem_cons_of_mem b hc)) (by omega)]

/-- What the loop over the continuation bytes comes to. -/
theorem utf8Cont_cases (left v i : Nat) (p : List UInt8) :
    utf8Cont left v i p = .fault ∨ utf8Cont left v i p = .fail .EINVAL 0 ∨
      ∃ v' k, utf8Cont left v i p = .char v' (i + k) .utf8 0 ∧ k < p.length := by
  induction p generalizing v i with
  | nil => exact .inl rfl
  | cons b p ih =>
    rw [utf8Cont]
    split
    · split
      · exact .inr (.inl rfl)
      · rcases ih ((v * 64 + b.toNat % 64) % 2 ^ 32) (i + 1) with h | h | ⟨v', k, h, hk⟩
        · exact .inl h
        · exact .inr (.inl h)
        · refine .inr (.inr ⟨v', k + 1, by rw [h, Nat.add_assoc, Nat.add_comm 1], ?_⟩)
          rw [List.length_cons]
          omega
    · exact .inr (.inr ⟨v, 0, rfl, Nat.succ_pos _⟩)

/-- The bytes that a decoder counts have been read, and `*inbytesleft` has room for the mark. -/
def Decoding.Within (p : List UInt8) (left : Nat) : Decoding → Prop
  | .fault => True
  | .fail _ bom => bom ≤ left ∧ bom ≤ 2
  | .char _ i _ bom => 1 ≤ i ∧ bom + i ≤ p.length ∧ bom ≤ left ∧ bom ≤ 2

theorem decodeUtf8_within (a : UInt8) (p : List UInt8) (left : Nat) :
    (decodeUtf8 a p left).Within (a :: p) left := by
  have hbom : 0 ≤ left ∧ 0 ≤ 2 := ⟨Nat.zero_le _, Nat.zero_le _⟩
  unfold decodeUtf8
  split
  · exact ⟨le_rfl, by rw [List.length_cons]; omega, hbom⟩
  split
  · exact hbom
  rcases utf8Cont_cases left (maskLead a leads).toNat 1 p with h | h | ⟨v', k, h, hk⟩
  · rw [h]
    trivial
  · rw [h]
    exact hbom
  · rw [h]
    dsimp only
    split
    · exact hbom
    · refine ⟨by omega, ?_, hbom⟩
      rw [List.length_cons]
      omega

theorem decodeUtf16_within (be : Bool) (p q : List UInt8) (left bom : Nat)
    (hq : q.length = p.length + bom) (hmark : bom ≤ 2) :
    (decodeUtf16 be p left bom).Within q (left + bom) := by
  have hbom : bom ≤ left + bom ∧ bom ≤ 2 := ⟨Nat.le_add_left _ _, hmark⟩
  unfold decodeUtf16
  dsimp only
  split
  · exact hbom
  split
  · rename_i a b r
    simp only [List.length_cons] at hq
    split
    · split
      · exact hbom
      split
      · exact hbom
      split
      · rename_i c d r'
        simp only [List.length_cons] at hq
        split
        · exact hbom
        · exact ⟨by omega, by omega, hbom⟩
      · trivial
    · exact ⟨by omega, by omega, hbom⟩
  · trivial

theorem decode_within (src : Charset) (p : List UInt8) (left : Nat) :
    (decode src p left).Within p left := by
  have hbom : 0 ≤ left ∧ 0 ≤ 2 := ⟨Nat.zero_le _, Nat.zero_le _⟩
  unfold decode
  split
  · trivial
  · rename_i a p
    cases src with
    | iso88591 => exact ⟨le_rfl, by rw [List.length_cons]; omega, hbom⟩
    | utf8 => exact decodeUtf8_within a p left
    | ucs2 =>
      dsimp only
      split
      · exact hbom
      split
      · exact ⟨by omega, by simp, hbom⟩
      · trivial
    | ucs4 =>
      dsimp only
      split
      · exact hbom
      split
      · exact ⟨by omega, by simp, hbom⟩
      · trivial
    | utf16be => exact decodeUtf16_within true _ _ left 0 rfl hbom.2
    | utf16le => exact decodeUtf16_within false _ _ left 0 rfl hbom.2
    | utf16 =>
      dsimp only
      split
      · exact hbom
      · rename_i hleft
        split
        · rename_i b q
          have hback : left - 2 + 2 = left := by omega
          have hmark (be : Bool) := decodeUtf16_within be q (a :: b :: q) (left - 2) 2 rfl le_rfl
          rw [hback] at hmark
          split
          · exact hmark false
          split
          · exact hmark true
          · exact hbom
        · trivial

/-! ## The turn -/

/-- `v>=0xd800 && v<=0xd8ff` -/
def Barred (v : Nat) : Prop := 0xd800 ≤ v ∧ v ≤ 0xd8ff

instance (v : Nat) : Decidable (Barred v) := inferInstanceAs (Decidable (_ ∧ _))

/-- The turn fails; `bom` and `obom` bytes of byte order marks have been counted in it. -/
inductive Fails (obj : List UInt8) (cap : Nat) (s : St) : Nat → Nat → Prop where
  | decode {e : Errno} {bom : Nat} (h : decode s.src (obj.drop s.pos) s.left = .fail e bom) :
      Fails obj cap s bom 0
  | barred {v i bom : Nat} {src : Charset}
      (h : decode s.src (obj.drop s.pos) s.left = .char v i src bom) (hv : Barred v) :
      Fails obj cap s bom 0
  | bloat {v i bom : Nat} {src : Charset}
      (h : decode s.src (obj.drop s.pos) s.left = .char v i src bom) (hv : ¬ Barred v)
      (hroom : s.out.left < (encoded s.out.dst v).length)
      (hwrite : s.out.dst = .utf8 → s.out.pos < cap) :
      Fails obj cap s bom (if s.out.dst = .utf16 ∧ 4 ≤ s.out.left then 2 else 0)

/-- What a turn of the loop comes to. -/
inductive StepEnd (obj : List UInt8) (cap : Nat) (s : St) : StNext → Prop where
  | done (h : s.left = 0) : StepEnd obj cap s
      (.stop ⟨.ok s.out.result, s.pos, s.left, s.out.pos, s.out.left, s.out.buf⟩)
  | read (hleft : s.left ≠ 0) (h : decode s.src (obj.drop s.pos) s.left = .fault) :
      StepEnd obj cap s (.fault ())
  | write {v i bom : Nat} {src : Charset} (hleft : s.left ≠ 0)
      (h : decode s.src (obj.drop s.pos) s.left = .char v i src bom) (hv : ¬ Barred v)
      (hdst : s.out.dst = .utf8) (hout : s.out.left = 0) (hcap : s.out.pos = cap) :
      StepEnd obj cap s (.fault ())
  | fails (e : Errno) (bom obom left : Nat) (o : Out) (hleft : s.left ≠ 0)
      (h : Fails obj cap s bom obom) (hbom : left + bom = s.left) (hobom : o.left + obom = s.out.left) :
      StepEnd obj cap s (failed e left o)
  | char {v i bom : Nat} {src : Charset} (o : Out) (hleft : s.left ≠ 0)
      (h : decode s.src (obj.drop s.pos) s.left = .char v i src bom) (hv : ¬ Barred v)
      (ho : Stored s.out o v) :
      StepEnd obj cap s (.again ⟨src, s.pos + bom + i, sub (s.left - bom) i, o⟩)

/-- **What a turn of the loop can do.** -/
theorem step_end (obj : List UInt8) (hcap : s.out.pos + s.out.left ≤ cap) :
    StepEnd obj cap s (step obj cap s) := by
  have hwithin := decode_within s.src (obj.drop s.pos) s.left
  unfold step
  split
  · exact .done ‹_›
  · rename_i hleft
    split
    · exact .read hleft ‹_›
    · rename_i e bom h
      rw [h] at hwithin
      exact .fails _ bom 0 _ _ hleft (.decode h) (Nat.sub_add_cancel hwithin.1) rfl
    · rename_i v i src bom h
      rw [h] at hwithin
      have hbom : s.left - bom + bom = s.left := Nat.sub_add_cancel hwithin.2.2.1
      split
      · rename_i hv
        exact .fails _ bom 0 _ _ hleft (.barred h hv) hbom rfl
      · rename_i hv
        have hend := encode_end (v := v) hcap
        split <;> rename_i henc <;> rw [henc] at hend
        · cases hend with
          | fault hdst hout hpos => exact .write hleft h hv hdst hout hpos
        · cases hend with
          | bloat _ hroom hwrite ho =>
            exact .fails _ bom _ _ _ hleft (.bloat h hv hroom hwrite) hbom ho
        · cases hend with
          | stored _ ho => exact .char _ hleft h hv ho

/-- A character that fits is stored. -/
theorem step_char {v i bom : Nat} {src : Charset} (hcap : s.out.pos + s.out.left ≤ cap)
    (hleft : s.left ≠ 0) (hdec : decode s.src (obj.drop s.pos) s.left = .char v i src bom)
    (hv : ¬ Barred v) (hroom : (encoded s.out.dst v).length ≤ s.out.left) :
    ∃ o, step obj cap s = .again ⟨src, s.pos + bom + i, sub (s.left - bom) i, o⟩ ∧
      Stored s.out o v := by
  have hunit := length_encoded s.out.dst v
  have hend := step_end obj hcap
  generalize hnext : step obj cap s = next at hend
  cases hend with
  | done hz => exact absurd hz hleft
  | read _ hdec' => rw [hdec] at hdec'; cases hdec'
  | write _ _ _ _ hout => omega
  | fails _ _ _ _ _ _ h =>
    cases h with
    | decode hdec' => rw [hdec] at hdec'; cases hdec'
    | barred hdec' hv' => rw [hdec] at hdec'; cases hdec'; exact absurd hv' hv
    | bloat hdec' _ hroom' => rw [hdec] at hdec'; cases hdec'; omega
  | char o _ hdec' _ ho =>
    rw [hdec] at hdec'
    cases hdec'
    exact ⟨o, rfl, ho⟩

/-- The loop stands in front of `p`, with enough room for what it is converted to. -/
structure At (obj : List UInt8) (cap : Nat) (src : Charset) (p behind : List UInt8) (s : St) :
    Prop where
  src : s.src = src
  text : obj.drop s.pos = p ++ behind
  left : s.left = p.length
  room : 6 * p.length + 4 ≤ s.out.left
  cap : s.out.pos + s.out.left ≤ cap

/-- A character is converted, and the loop goes on behind it. -/
theorem At.char {src : Charset} {p behind : List UInt8} {v : Nat}
    (h : At obj cap src (p ++ t) behind s) (hp : p ≠ [])
    (hdec : decode src (p ++ (t ++ behind)) (p ++ t).length = .char v p.length src 0)
    (hv : ¬ Barred v) :
    ∃ s', step obj cap s = .again s' ∧ At obj cap src t behind s' ∧ Stored s.out s'.out v := by
  have hpos := List.length_pos_iff.mpr hp
  have hleft := h.left
  have hroom := h.room
  have hcap := h.cap
  have htext := h.text
  rw [List.length_append] at hleft hroom
  have hdec' : decode s.src (obj.drop s.pos) s.left = .char v p.length src 0 := by
    rw [h.src, htext, List.append_assoc, h.left]
    exact hdec
  have hunit := length_encoded s.out.dst v
  obtain ⟨o, hstep, ho⟩ := step_char hcap (by omega) hdec' hv (by omega)
  have hoPos := ho.pos
  have hoLeft := ho.left
  refine ⟨_, hstep, ⟨rfl, ?_, ?_, ?_, ?_⟩, ho⟩
  · dsimp only
    rw [Nat.add_zero, ← List.drop_drop, htext, List.append_assoc, List.drop_left]
  · dsimp only
    rw [sub, if_pos (by omega)]
    omega
  · dsimp only
    omega
  · dsimp only
    omega

end Dietlibc.Iconv
