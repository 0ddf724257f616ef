import Mathlib.Tactic
import Dietlibc.Crypt.Md5

/-!
# The chunks of a message

What a context holds is the accumulator of the message, whatever its chunks are. The low word of the
count of bits is always right; the high word is right behind a chunk below `2 ^ 29` bytes and one too
large behind a longer chunk that does not carry. The theorems are about any block function.
-/

namespace Dietlibc.Crypt

open CInt Mem Chunked

variable {transform : State → List UInt8 → State} {context context' : Md5Ctx} {m l : List UInt8}

/-- The state and the incomplete block of a message. -/
def digested (transform : State → List UInt8 → State) (m : List UInt8) : Accum State UInt8 64 :=
  absorb transform (.boundary (by decide) initial) m

/-- The context has taken in the message `m`. -/
structure Holds (transform : State → List UInt8 → State) (context : Md5Ctx) (m : List UInt8) :
    Prop where
  state : context.state = (digested transform m).state
  buffer : load context.buffer 0 (m.length % 64) = (digested transform m).pending
  count0 : context.count0 = 8 * m.length % 2 ^ 32

theorem length_digested : (digested transform m).pending.length = m.length % 64 := by
  rw [digested, length_absorb]
  exact congrArg (· % 64) (Nat.zero_add _)

theorem digested_append : digested transform (m ++ l) = absorb transform (digested transform m) l :=
  absorb_append _ _ _

theorem holds_init (context : Md5Ctx) : Holds transform (md5Init context) [] := ⟨rfl, rfl, rfl⟩

theorem Holds.byteIndex (h : Holds transform context m) : context.count0 / 8 % 64 = m.length % 64 := by
  rw [h.count0]
  omega

/-- The index behind the blocks, when it is not negative. -/
theorem inputIndex_eq {partLen : Nat} {len i : Int} (h64 : partLen ≤ 64) (hlen : 0 ≤ len)
    (h : inputIndex partLen len = some i) (hi : 0 ≤ i) : i = partLen + 64 * len ∧ i < 2 ^ 31 := by
  obtain ⟨b, hb, rfl⟩ := Option.map_eq_some_iff.1 h
  have hfits := fits_of_sval hb
  obtain rfl := sval_eq_some hb
  have hres := conv_emod32 ((partLen + 64 * len) % 2 ^ 32)
  have hbounds := conv_bounds32 ((partLen + 64 * len) % 2 ^ 32)
  rw [fits32] at hfits
  omega

/-- Where an update with a complete block ends: no count of blocks and no index is truncated. -/
theorem index_exact {partLen n : Nat} {i : Int} (h : partLen ≤ n) (h64 : partLen ≤ 64)
    (hlen : 0 ≤ conv 32 ((n - partLen) / 64 : Nat))
    (hi : inputIndex partLen (conv 32 ((n - partLen) / 64 : Nat)) = some i) (hi0 : 0 ≤ i)
    (hrest : (n : Int) - i ≤ 64) :
    conv 32 ((n - partLen) / 64 : Nat) = ((n - partLen) / 64 : Nat) ∧
      i = (partLen + 64 * ((n - partLen) / 64) : Nat) ∧
      partLen + 64 * ((n - partLen) / 64) < 2 ^ 31 := by
  obtain ⟨hi', hlt⟩ := inputIndex_eq h64 hlen hi hi0
  have hres := conv_emod32 ((n - partLen) / 64 : Nat)
  have hbounds := conv_bounds32 ((n - partLen) / 64 : Nat)
  generalize conv 32 ((n - partLen) / 64 : Nat) = len at *
  omega

theorem bufferInput_eq_some {byteIndex : Nat} {i : Int}
    (h : bufferInput context byteIndex l i = some context') :
    (0 ≤ i ∧ i ≤ l.length ∧ byteIndex + (l.length - i) ≤ 64) ∧
      context' = { context with buffer := store context.buffer byteIndex (l.drop i.toNat) } := by
  unfold bufferInput at h
  split at h
  · exact ⟨‹_›, (Option.some.inj h).symm⟩
  · cases h

/-- The count of the low word. -/
theorem count0_append (h : Holds transform context m) :
    (context.count0 + l.length * 8 % 2 ^ 64) % 2 ^ 32 = 8 * (m ++ l).length % 2 ^ 32 := by
  rw [h.count0, List.length_append]
  omega

/-- The block that an update completes. -/
theorem load_completed (h : Holds transform context m) {p : List UInt8}
    (hp : m.length % 64 + p.length = 64) :
    load (store context.buffer (m.length % 64) p) 0 64 = (digested transform m).pending ++ p := by
  have hsum : load (store context.buffer (m.length % 64) p) 0 (m.length % 64 + p.length) =
      load context.buffer 0 (m.length % 64) ++ p := by
    rw [load_add, load_store_out (Or.inl (by omega)), Nat.zero_add, load_store_self rfl]
  rw [hp, h.buffer] at hsum
  exact hsum

/-- An update that completes no block. -/
theorem holds_short (h : Holds transform context m) (hl : m.length % 64 + l.length < 64)
    (count1 : Nat) :
    Holds transform ⟨context.state, (context.count0 + l.length * 8 % 2 ^ 64) % 2 ^ 32, count1,
      store context.buffer (m.length % 64) l⟩ (m ++ l) := by
  obtain ⟨hs, hp⟩ := absorb_short (f := transform) (digested transform m) (l := l)
    (by rw [length_digested]; exact hl)
  refine ⟨?_, ?_, count0_append h⟩
  · rw [digested_append, hs]
    exact h.state
  · have hlen : (m ++ l).length % 64 = m.length % 64 + l.length := by
      rw [List.length_append]
      omega
    rw [digested_append, hp, hlen, load_add, load_store_out (Or.inl (by omega)), Nat.zero_add,
      load_store_self rfl, h.buffer]

/-- An update that completes `k + 1` blocks, the first of them with the first `p` bytes. -/
theorem holds_long (h : Holds transform context m) {p k : Nat} (hp : m.length % 64 + p = 64)
    (hk : p + 64 * k ≤ l.length) (hrest : l.length - (p + 64 * k) < 64) (count1 : Nat) :
    Holds transform ⟨folded transform 64 k (transform context.state
        (load (store context.buffer (m.length % 64) (l.take p)) 0 64)) (l.drop p),
      (context.count0 + l.length * 8 % 2 ^ 64) % 2 ^ 32, count1,
      store (store context.buffer (m.length % 64) (l.take p)) 0 (l.drop (p + 64 * k))⟩ (m ++ l) := by
  have htake : (l.take p).length = p := by
    rw [List.length_take, Nat.min_eq_left (by omega)]
  have hblock := load_completed h (p := l.take p) (by rw [htake]; exact hp)
  have hfill := absorb_fill (f := transform) (digested transform m) (l := l.take p)
    (by rw [length_digested, htake]; exact hp)
  have hblocks := absorb_blocks (f := transform) (n := 64) (by decide) (k := k)
    (transform (digested transform m).state ((digested transform m).pending ++ l.take p))
    (l := l.drop p) (by rw [List.length_drop]; omega)
  have hdrop : ((l.drop p).drop (64 * k)) = l.drop (p + 64 * k) := List.drop_drop
  obtain ⟨hs, hpend⟩ := absorb_short (f := transform) (n := 64) (.boundary (by decide)
    (folded transform 64 k (transform (digested transform m).state
      ((digested transform m).pending ++ l.take p)) (l.drop p))) (l := l.drop (p + 64 * k))
    (by rw [List.length_drop]; exact Nat.lt_of_le_of_lt (Nat.zero_add _).le hrest)
  have hall : digested transform (m ++ l) = absorb transform (.boundary (by decide)
      (folded transform 64 k (transform (digested transform m).state
        ((digested transform m).pending ++ l.take p)) (l.drop p))) (l.drop (p + 64 * k)) := by
    rw [digested_append, ← hdrop, ← hblocks]
    conv_lhs => rw [← List.take_append_drop p l, absorb_append, hfill]
  refine ⟨?_, ?_, count0_append h⟩
  · rw [hall, hs, hblock, h.state]
    rfl
  · have hlen : (m ++ l).length % 64 = (l.drop (p + 64 * k)).length := by
      rw [List.length_append, List.length_drop]
      omega
    rw [hall, hpend, hlen]
    exact load_store_self rfl

/-- **An update that has a result takes in its input**, and the input up to the last boundary of a
block is below `2 ^ 31` bytes. -/
theorem md5Update_spec (h : Holds transform context m)
    (hu : md5Update transform context l = some context') :
    Holds transform context' (m ++ l) ∧
      context'.count1 = nextCount1 context.count0 context.count1 l.length ∧
      (m.length % 64 + l.length) / 64 * 64 < 2 ^ 31 + m.length % 64 := by
  unfold md5Update at hu
  rw [h.byteIndex] at hu
  dsimp only at hu
  by_cases hlong : 64 - m.length % 64 ≤ l.length
  · rw [if_pos hlong] at hu
    obtain ⟨state, hstate, hu⟩ := Option.bind_eq_some_iff.1 hu
    obtain ⟨i, hi, hu⟩ := Option.bind_eq_some_iff.1 hu
    obtain ⟨⟨hi0, hin, hrest⟩, rfl⟩ := bufferInput_eq_some hu
    unfold md5Transform at hstate
    split at hstate
    · cases hstate
    · rename_i hrep
      obtain ⟨hlen, rfl, hlt⟩ := index_exact hlong (by omega) (by omega) hi hi0 (by omega)
      rw [Option.some.injEq, hlen] at hstate
      rw [← hstate]
      refine ⟨?_, rfl, by omega⟩
      exact holds_long h (p := 64 - m.length % 64) (by omega) (by omega) (by omega) _
  · rw [if_neg hlong] at hu
    obtain ⟨-, rfl⟩ := bufferInput_eq_some hu
    exact ⟨holds_short h (by omega) _, rfl, by omega⟩

/-- The blocks of an input below `2 ^ 29` bytes: nothing is truncated. -/
theorem conv_blocks {partLen n : Nat} (hn : n < 2 ^ 29) (hlong : partLen ≤ n) (h64 : partLen ≤ 64) :
    conv 32 ((n - partLen) / 64 : Nat) = ((n - partLen) / 64 : Nat) ∧
      inputIndex partLen ((n - partLen) / 64 : Nat) =
        some ((partLen + 64 * ((n - partLen) / 64) : Nat) : Int) := by
  have hfits : Fits 32 (64 * ((n - partLen) / 64 : Nat)) := by
    rw [fits32]
    omega
  refine ⟨conv_of_fits (by decide) (fits32.2 (by omega)), ?_⟩
  unfold inputIndex
  rw [sval_of_fits hfits, Option.map_some, conv_of_fits (by decide) (fits32.2 (by omega))]
  congr 1
  omega

/-- An update with an input below `2 ^ 29` bytes has a result. -/
theorem md5Update_isSome (h : Holds transform context m) (hl : l.length < 2 ^ 29) :
    (md5Update transform context l).isSome = true := by
  unfold md5Update
  rw [h.byteIndex]
  dsimp only
  by_cases hlong : 64 - m.length % 64 ≤ l.length
  · obtain ⟨hlen, hindex⟩ := conv_blocks hl hlong (by omega)
    have hrep : ¬((((l.length - (64 - m.length % 64)) / 64 : Nat) : Int) < 0 ∨
        ((l.drop (64 - m.length % 64)).length : Int) <
          64 * ((l.length - (64 - m.length % 64)) / 64 : Nat)) := by
      rw [List.length_drop]
      omega
    rw [if_pos hlong, hlen, hindex, md5Transform, if_neg hrep, Option.bind_some, Option.bind_some,
      bufferInput, if_pos (by omega)]
    rfl
  · rw [if_neg hlong, bufferInput, if_pos (by omega)]
    rfl

/-- The count of the high word is right behind an input below `2 ^ 29` bytes. -/
theorem nextCount1_small {m n : Nat} (hn : n < 2 ^ 29) :
    nextCount1 (8 * m % 2 ^ 32) (8 * m / 2 ^ 32 % 2 ^ 32) n = 8 * (m + n) / 2 ^ 32 % 2 ^ 32 := by
  unfold nextCount1
  dsimp only
  split <;> omega

/-- A longer input carries, whether or not the low word does. -/
theorem nextCount1_large {n : Nat} (hn : 2 ^ 29 ≤ n) (hlt : n < 2 ^ 31 + 64) :
    nextCount1 0 0 n = n / 2 ^ 29 + 1 := by
  unfold nextCount1
  dsimp only
  split <;> omega

/-- **Chunks below `2 ^ 29` bytes keep the context exact.** -/
theorem md5Updates_small (h : Holds transform context m)
    (h1 : context.count1 = 8 * m.length / 2 ^ 32 % 2 ^ 32) {chunks : List (List UInt8)}
    (hsmall : ∀ l ∈ chunks, l.length < 2 ^ 29) :
    ∃ context', md5Updates transform context chunks = some context' ∧
      Holds transform context' (m ++ chunks.flatten) ∧
      context'.count1 = 8 * (m ++ chunks.flatten).length / 2 ^ 32 % 2 ^ 32 := by
  induction chunks generalizing context m with
  | nil =>
    rw [List.flatten_nil, List.append_nil]
    exact ⟨context, rfl, h, h1⟩
  | cons l chunks ih =>
    obtain ⟨hl, hrest⟩ := List.forall_mem_cons.1 hsmall
    obtain ⟨c, hc⟩ := Option.isSome_iff_exists.1 (md5Update_isSome h hl)
    obtain ⟨hholds, hcount, -⟩ := md5Update_spec h hc
    rw [h.count0, h1, nextCount1_small hl, ← List.length_append] at hcount
    obtain ⟨c', hc', hfinal⟩ := ih hholds hcount hrest
    rw [List.append_assoc] at hfinal
    refine ⟨c', ?_, hfinal⟩
    unfold md5Updates
    rw [List.foldlM_cons, hc]
    exact hc'

/-! ## The digest -/

/-- What `MD5Final` appends to a message of `n` bytes. -/
def finalInput (n count0 count1 : Nat) : List UInt8 :=
  finalBlock.take ((if n % 64 < 56 then 56 else 120) - n % 64) ++
    (wordBytes32 count0 ++ wordBytes32 count1)

theorem length_finalInput (n count0 count1 : Nat) :
    (n + (finalInput n count0 count1).length) % 64 = 0 := by
  have hfinal : finalBlock.length = 64 := rfl
  unfold finalInput
  rw [List.length_append, List.length_take, hfinal]
  have hbits : (wordBytes32 count0 ++ wordBytes32 count1).length = 8 := rfl
  rw [hbits]
  split <;> omega

/-- **The end of a digest** is the fold over the message and what `MD5Final` appends. -/
theorem md5Final_eq (h : Holds transform context m) :
    md5Final transform context = some (digestOf (folded transform 64
      ((m ++ finalInput m.length context.count0 context.count1).length / 64) initial
      (m ++ finalInput m.length context.count0 context.count1))) := by
  have hwhole : (m ++ finalInput m.length context.count0 context.count1).length % 64 = 0 := by
    rw [List.length_append]
    exact length_finalInput _ _ _
  unfold md5Final
  rw [h.byteIndex]
  dsimp only
  unfold finalInput at hwhole ⊢
  generalize hblock : finalBlock.take ((if m.length % 64 < 56 then 56 else 120) - m.length % 64) =
    block at hwhole ⊢
  generalize hbits : wordBytes32 context.count0 ++ wordBytes32 context.count1 = bits at hwhole ⊢
  have hblock_lt : block.length < 2 ^ 29 := by
    rw [← hblock]
    exact Nat.lt_of_le_of_lt (List.length_take_le _ _) (by split <;> omega)
  have hbits_lt : bits.length < 2 ^ 29 := by
    rw [← hbits]
    exact (by decide : 8 < 2 ^ 29)
  obtain ⟨c, hc⟩ := Option.isSome_iff_exists.1 (md5Update_isSome h hblock_lt)
  obtain ⟨hc_holds, -⟩ := md5Update_spec h hc
  obtain ⟨c', hc'⟩ := Option.isSome_iff_exists.1 (md5Update_isSome hc_holds hbits_lt)
  obtain ⟨hc'_holds, -⟩ := md5Update_spec hc_holds hc'
  have hrun : md5Updates transform context [block, bits] = some c' := by
    unfold md5Updates
    rw [List.foldlM_cons, hc, Option.bind_eq_bind, Option.bind_some, List.foldlM_cons, hc']
    rfl
  have hstate := hc'_holds.state
  rw [List.append_assoc, digested, absorb_whole (by decide) _ hwhole] at hstate
  rw [hrun, Option.map_some, hstate]
  rfl

/-- The bits of the length, word by word. -/
theorem wordBytes32_halves (v : Nat) :
    wordBytes32 (v % 2 ^ 32) ++ wordBytes32 (v / 2 ^ 32 % 2 ^ 32) =
      (List.range 8).map fun k => UInt8.ofNat (v % 2 ^ 64 / 256 ^ k) := by
  have hbyte : ∀ x y : Nat, x % 256 = y % 256 → UInt8.ofNat x = UInt8.ofNat y := by
    intro x y hxy
    exact UInt8.toNat_inj.1 (by simpa using hxy)
  unfold wordBytes32
  simp only [List.range_succ, List.range_zero, List.nil_append, List.map_cons, List.map_nil,
    List.cons_append, List.cons.injEq, and_true]
  refine ⟨hbyte _ _ ?_, hbyte _ _ ?_, hbyte _ _ ?_, hbyte _ _ ?_, hbyte _ _ ?_, hbyte _ _ ?_,
    hbyte _ _ ?_, hbyte _ _ ?_⟩
  all_goals norm_num
  all_goals omega

/-- With the right counts the padding is the one of the standard. -/
theorem finalInput_eq (n : Nat) :
    finalInput n (8 * n % 2 ^ 32) (8 * n / 2 ^ 32 % 2 ^ 32) = padding n := by
  have htake : ∀ k, k ≤ 63 → finalBlock.take (k + 1) = 0x80 :: List.replicate k 0 := by
    intro k hk
    unfold finalBlock
    rw [List.take_succ_cons, List.take_replicate, Nat.min_eq_left hk]
  have hlen : (if n % 64 < 56 then 56 else 120) - n % 64 = (119 - n % 64) % 64 + 1 := by
    split <;> omega
  unfold finalInput padding
  rw [hlen, htake _ (by omega), wordBytes32_halves]

/-- **Chunks below `2 ^ 29` bytes give the digest of the standard**, of a message of any length. -/
theorem md5_small (context : Md5Ctx) {chunks : List (List UInt8)}
    (hsmall : ∀ l ∈ chunks, l.length < 2 ^ 29) :
    md5 transform context chunks = some (construction transform chunks.flatten) := by
  have hinit : Holds transform (md5Init context) [] := holds_init context
  obtain ⟨c, hc, hholds, hcount⟩ := md5Updates_small hinit rfl hsmall
  rw [List.nil_append] at hholds hcount
  unfold md5
  rw [hc, Option.bind_some, md5Final_eq hholds, hholds.count0, hcount, finalInput_eq]
  rfl

/-! ## Chunking -/

/-- A block function that returns the byte with the highest bits of the length. -/
def lengthByte (_ : State) (block : List UInt8) : State := ⟨(block.getD 60 0).toUInt32, 0, 0, 0⟩

theorem digest_lengthByte {q : List UInt8} {w : Nat} (s : State)
    (h : (q ++ wordBytes32 w).length % 64 = 0) :
    (digestOf (folded lengthByte 64 ((q ++ wordBytes32 w).length / 64) s (q ++ wordBytes32 w))).head? =
      some (UInt8.ofNat w) := by
  have hlen : (q ++ wordBytes32 w).length = q.length + 4 := by
    rw [List.length_append]
    rfl
  obtain ⟨k, hk⟩ : ∃ k, q.length = 64 * k + 60 := ⟨q.length / 64, by omega⟩
  have hblock : (((q ++ wordBytes32 w).drop (64 * k)).take 64).getD 60 0 = UInt8.ofNat w := by
    rw [List.getD_eq_getElem?_getD, List.getElem?_take_of_lt (by decide), List.getElem?_drop, ← hk,
      List.getElem?_append_right le_rfl, Nat.sub_self]
    simp [wordBytes32, List.range_succ]
  rw [hlen, show (q.length + 4) / 64 = k + 1 by omega, folded_succ]
  unfold lengthByte
  rw [hblock]
  show some (UInt8.ofNat ((UInt8.ofNat w).toUInt32.toNat / 256 ^ 0)) = _
  rw [pow_zero, Nat.div_one, UInt8.toNat_toUInt32, UInt8.ofNat_toNat]

/-- The digests that two high words give are different when their low bytes are. -/
theorem count1_eq {c1 : Nat} (h : Holds lengthByte context m)
    (hd : md5Final lengthByte context = some (construction lengthByte m))
    (hc : context.count1 = c1) : UInt8.ofNat c1 = UInt8.ofNat (8 * m.length / 2 ^ 32 % 2 ^ 32) := by
  have hpad := finalInput_eq m.length
  have hsplit : ∀ w, m ++ finalInput m.length (8 * m.length % 2 ^ 32) w =
      (m ++ (finalBlock.take ((if m.length % 64 < 56 then 56 else 120) - m.length % 64) ++
        wordBytes32 (8 * m.length % 2 ^ 32))) ++ wordBytes32 w := by
    intro w
    unfold finalInput
    simp only [List.append_assoc]
  have hwhole : ∀ w, (m ++ finalInput m.length (8 * m.length % 2 ^ 32) w).length % 64 = 0 := by
    intro w
    rw [List.length_append]
    exact length_finalInput _ _ _
  rw [md5Final_eq h, Option.some.injEq, h.count0, hc] at hd
  unfold construction at hd
  rw [← hpad] at hd
  have hhead := congrArg List.head? hd
  simp only [hsplit] at hhead hwhole
  rw [digest_lengthByte _ (hwhole _), digest_lengthByte _ (hwhole _)] at hhead
  exact Option.some.inj hhead

/-- A single update of a fresh context that has a result. -/
theorem md5_single {d : List UInt8} (h : md5 transform context [m] = some d) :
    ∃ c, Holds transform c m ∧ c.count1 = nextCount1 0 0 m.length ∧ m.length / 64 * 64 < 2 ^ 31 ∧
      md5Final transform c = some d := by
  obtain ⟨c, hc, hfinal⟩ := Option.bind_eq_some_iff.1 h
  have hc' : md5Update transform (md5Init context) m = some c := by
    simpa [md5Updates] using hc
  obtain ⟨hholds, hcount, hlt⟩ := md5Update_spec (holds_init context) hc'
  rw [List.nil_append] at hholds
  exact ⟨c, hholds, hcount, by simpa using hlt, hfinal⟩

/-- A single update with `2 ^ 29` bytes or more has no result or a wrong count. -/
theorem md5_single_large (context : Md5Ctx) (hm : 2 ^ 29 ≤ m.length) :
    md5 lengthByte context [m] ≠ some (construction lengthByte m) := by
  intro hd
  obtain ⟨c, hholds, hcount, hlt, hfinal⟩ := md5_single hd
  have hlarge : c.count1 = m.length / 2 ^ 29 + 1 := hcount.trans (nextCount1_large hm (by omega))
  have hbyte := congrArg UInt8.toNat (count1_eq hholds hfinal hlarge)
  simp only [UInt8.toNat_ofNat'] at hbyte
  omega

/-- **The digest does not depend on the chunks, and is the one of the standard, exactly for
messages below `2 ^ 29` bytes.** -/
theorem md5_chunks_iff (chunks : List (List UInt8)) :
    (∀ (transform : State → List UInt8 → State) (context : Md5Ctx),
      md5 transform context chunks = md5 transform context [chunks.flatten] ∧
        md5 transform context chunks = some (construction transform chunks.flatten)) ↔
      chunks.flatten.length < 2 ^ 29 := by
  constructor
  · intro h
    by_contra hlarge
    obtain ⟨hsame, hstd⟩ := h lengthByte ⟨initial, 0, 0, fun _ => 0⟩
    exact md5_single_large _ (Nat.le_of_not_lt hlarge) (hsame.symm.trans hstd)
  · intro hlt transform context
    have hchunks : ∀ l ∈ chunks, l.length < 2 ^ 29 := fun l hl =>
      Nat.lt_of_le_of_lt (List.Sublist.length_le (List.sublist_flatten_of_mem hl)) hlt
    have hsingle : ∀ l ∈ [chunks.flatten], l.length < 2 ^ 29 := by simpa using hlt
    have hflat : [chunks.flatten].flatten = chunks.flatten := List.flatten_singleton
    rw [md5_small context hchunks, md5_small context hsingle, hflat]
    exact ⟨rfl, rfl⟩

/-- A message of `2 ^ 31` zeros in one chunk: the index behind its blocks is not an `int`. -/
theorem md5_two_gigabytes : ¬∀ (chunks : List (List UInt8)) (context : Md5Ctx),
    md5 md5Block context chunks = md5 md5Block context [chunks.flatten] ∧
      md5 md5Block context chunks = some (construction md5Block chunks.flatten) := by
  intro h
  obtain ⟨m, hm⟩ : ∃ m, m = List.replicate (2 ^ 31) (0 : UInt8) := ⟨_, rfl⟩
  have hlen : m.length = 2 ^ 31 := by rw [hm, List.length_replicate]
  have hstd := (h [m] ⟨initial, 0, 0, fun _ => 0⟩).2
  obtain ⟨c, -, -, hlt, -⟩ := md5_single hstd
  omega

end Dietlibc.Crypt
