import Dietlibc.Printf.Plain
import Mathlib.Data.List.TakeWhile

/-!
# The number that `__v_printf` returns

A format and its arguments call for a row of items, each written by `B_WRITE` or at `print_out`,
whatever was written before. Their pieces are added to the 32 bits of `len` one after the other
(`tally`). The counter is exact as long as no piece has 2^32 bytes.
-/

namespace Dietlibc.Printf

open Lib

/-! ## Items -/

/-- What is written for a part of the format. -/
inductive Item where
  | text (buf : List Char)
  | field (f : Flags) (inSign : Bool) (precpadwith : Char) (s : List Char)

/-- An item handed to `fn->put`. -/
def Item.print : Item → Out → Except (Fault × Out) Out
  | .text buf, o => bWrite buf o
  | .field f inSign precpadwith s, o => printOut f inSign precpadwith s o

/-- The item of `numOut`. -/
def numItem (f : Flags) (inSign neg : Bool) (pre digits : List Char) : Item :=
  let zero := f.dot ∧ digits = ['0']
  let body :=
    if zero then if f.preci = 0 ∨ 0 < f.hash then [] else pre
    else pre ++ digits
  let f := if zero then { f with hash := 0 } else f
  if neg then .field f true '0' ('-' :: body)
  else if inSign ∧ (f.sign ∨ f.space) then
    .field f true '0' ((if f.sign then '+' else ' ') :: body)
  else .field f false '0' body

/-- The arguments behind a conversion and its items. -/
abbrev Items := Except Fault (List Arg × List Item)

/-- The item of `numPrintf`. -/
def numItems (base : Nat) (upcase inSign : Bool) (pre : List Char) (f : Flags)
    (args : List Arg) : Items :=
  match args with
  | .word w :: args =>
    .ok (args, [numItem f inSign (readNumber f inSign w).1 pre
      (ltostr 123 (readNumber f inSign w).2 base upcase)])
  | _ => .error .noArg

/-- The item of `hexPrintf`. -/
def hexItems (ch : Char) (upcase : Bool) (f : Flags) (args : List Arg) : Items :=
  numItems 16 upcase false (if f.hash ≠ 0 then ['0', ch] else [])
    { f with
      hash := if f.hash ≠ 0 then 2 else f.hash
      width := if f.width < f.preci then f.preci else f.width } args

/-- The item of `octPrintf`. -/
def octItems (f : Flags) (args : List Arg) : Items :=
  numItems 8 false false (if f.hash ≠ 0 then ['0'] else [])
    { f with hash := if f.hash ≠ 0 then 1 else f.hash } args

/-- The items of a conversion. -/
def convItems (ch : Char) (f : Flags) (args : List Arg) : Items :=
  match ch with
  | '%' => .ok (args, [.text ['%']])
  | 'c' =>
    match args with
    | .word w :: args => .ok (args, [.text [Char.ofNat (w % 256)]])
    | _ => .error .noArg
  | 's' =>
    match args with
    | .str s :: args =>
      .ok (args, [.field { f with preci := 0, dot := false, padwith := ' ' } false ' '
        (if f.dot then s.take f.preci else s)])
    | _ => .error .noArg
  | 'b' => numItems 2 false false [] f args
  | 'p' => hexItems 'x' false { f with hash := 2, long := 1 } args
  | 'X' => hexItems 'X' true f args
  | 'x' => hexItems 'x' false f args
  | 'd' | 'i' => numItems 10 false true [] f args
  | 'u' => numItems 10 false false [] f args
  | 'o' => octItems f args
  | _ => .ok (args, [])

/-- The items that a format and its arguments call for, and the fault that ends them. -/
def script (format : List Char) (args : List Arg) : List Item × Option Fault :=
  let sz := format.takeWhile (· ≠ '%')
  let text := if sz = [] then [] else [Item.text sz]
  match _hf : format.dropWhile (· ≠ '%') with
  | [] => (text, none)
  | _ :: format' =>
    match _h : innPrintf .init format' args with
    | .error e => (text, some e)
    | .ok (ch, f, rest, args) =>
      match convItems ch f args with
      | .error e => (text, some e)
      | .ok (args, items) => (text ++ (items ++ (script rest args).1), (script rest args).2)
termination_by format.length
decreasing_by
  all_goals
    have h1 := innPrintf_le _h
    have h2 := (List.dropWhile_sublist (· ≠ '%') (l := format)).length_le
    rw [_hf, List.length_cons] at h2
    omega

/-! ## The calls are the items -/

/-- Items written one after the other. -/
def printAll : List Item → Out → Except (Fault × Out) Out
  | [], o => .ok o
  | item :: items, o => (item.print o).bind fun o => printAll items o

/-- The items written, if there are any. -/
def perform (r : Items) (o : Out) : Except (Fault × Out) (List Arg × Out) :=
  match r with
  | .error e => .error (e, o)
  | .ok (args, items) => (printAll items o).map fun o => (args, o)

/-- A fault behind the items. -/
def stopWith (stop : Option Fault) (o : Out) : Except (Fault × Out) Out :=
  match stop with
  | none => .ok o
  | some e => .error (e, o)

theorem except_bind_ok {ε α : Type} (r : Except ε α) : (r.bind fun a => .ok a) = r := by
  cases r <;> rfl

theorem except_bind_assoc {ε α β γ : Type} (r : Except ε α) (g : α → Except ε β)
    (h : β → Except ε γ) : (r.bind g).bind h = r.bind fun a => (g a).bind h := by
  cases r <;> rfl

theorem printAll_one (item : Item) (o : Out) : printAll [item] o = item.print o :=
  except_bind_ok _

theorem printAll_append (xs ys : List Item) (o : Out) :
    printAll (xs ++ ys) o = (printAll xs o).bind fun o => printAll ys o := by
  induction xs generalizing o with
  | nil => rfl
  | cons x xs ih =>
    rw [List.cons_append, printAll, printAll, except_bind_assoc]
    congr 1
    funext o'
    exact ih o'

theorem numOut_item (f : Flags) (inSign neg : Bool) (pre digits : List Char) (o : Out) :
    numOut f inSign neg pre digits o = (numItem f inSign neg pre digits).print o := by
  unfold numOut numItem
  dsimp only
  by_cases hn : neg = true
  · rw [if_pos hn, if_pos hn]
    rfl
  · rw [if_neg hn, if_neg hn, apply_ite (fun item => Item.print item o)]
    rfl

theorem numPrintf_items (base : Nat) (upcase inSign : Bool) (pre : List Char) (f : Flags)
    (args : List Arg) (o : Out) : numPrintf base upcase inSign pre f args o =
      perform (numItems base upcase inSign pre f args) o := by
  unfold numPrintf numItems
  rcases args with - | ⟨w | s, args⟩
  · rfl
  · dsimp only [perform]
    rw [printAll_one, numOut_item]
  · rfl

theorem perform_one (args : List Arg) (item : Item) (o : Out) :
    (item.print o).map (fun o => (args, o)) = perform (.ok (args, [item])) o := by
  rw [perform, printAll_one]

theorem convert_items (ch : Char) (f : Flags) (args : List Arg) (o : Out) :
    convert ch f args o = perform (convItems ch f args) o := by
  unfold convert
  split
  · exact perform_one args (.text ['%']) o
  · rcases args with - | ⟨w | s, args⟩
    · rfl
    · exact perform_one args (.text [Char.ofNat (w % 256)]) o
    · rfl
  · rcases args with - | ⟨w | s, args⟩
    · rfl
    · rfl
    · exact perform_one args (.field _ false ' ' _) o
  · exact numPrintf_items _ _ _ _ _ _ _
  · exact numPrintf_items _ _ _ _ _ _ _
  · exact numPrintf_items _ _ _ _ _ _ _
  · exact numPrintf_items _ _ _ _ _ _ _
  · exact numPrintf_items _ _ _ _ _ _ _
  · exact numPrintf_items _ _ _ _ _ _ _
  · exact numPrintf_items _ _ _ _ _ _ _
  · exact numPrintf_items _ _ _ _ _ _ _
  · unfold convItems
    split
    all_goals first | rfl | contradiction

/-- The items of a conversion in front of those of the rest of the format. -/
def behind (r : Items) (rest : List Char) : List Item × Option Fault :=
  match r with
  | .error e => ([], some e)
  | .ok (args, items) => (items ++ (script rest args).1, (script rest args).2)

theorem script_percent (tail : List Char) (args : List Arg) : script ('%' :: tail) args =
    match innPrintf .init tail args with
    | .error e => ([], some e)
    | .ok (ch, f, rest, as) => behind (convItems ch f as) rest := by
  have htake : ('%' :: tail).takeWhile (· ≠ '%') = [] := by simp
  have hdrop : ('%' :: tail).dropWhile (· ≠ '%') = '%' :: tail := by simp
  rw [script]
  simp only [htake, if_true]
  split
  · rename_i hf
    rw [hdrop] at hf
    cases hf
  · rename_i c format' hf
    rw [hdrop] at hf
    obtain ⟨rfl, rfl⟩ := List.cons.inj hf
    split
    · rename_i he
      rw [he]
    · rename_i he
      rw [he]
      dsimp only [behind]
      split
      · rfl
      · rfl

theorem script_nil (args : List Arg) : script [] args = ([], none) := by
  rw [script]
  rfl

theorem script_text {t rest : List Char} (ht : ∀ c ∈ t, c ≠ '%') (hne : t ≠ [])
    (hrest : ∀ c ∈ rest.head?, c = '%') (args : List Arg) :
    script (t ++ rest) args = (.text t :: (script rest args).1, (script rest args).2) := by
  have htake : (t ++ rest).takeWhile (· ≠ '%') = t := by
    rw [List.takeWhile_append_of_pos (by simpa using ht)]
    rcases rest with - | ⟨c, rest⟩
    · simp
    · simp [hrest c rfl]
  have hdrop : (t ++ rest).dropWhile (· ≠ '%') = rest := by
    rw [List.dropWhile_append_of_pos (by simpa using ht)]
    rcases rest with - | ⟨c, rest⟩
    · simp
    · simp [hrest c rfl]
  rw [script]
  simp only [htake, if_neg hne]
  split
  · rename_i hf
    rw [← hdrop, hf, script_nil]
  · rename_i c format' hf
    rw [hdrop] at hf
    obtain rfl : c = '%' := hrest c (by rw [hf]; rfl)
    rw [hf, script_percent]
    split
    · rename_i he
      rw [he]
    · rename_i he
      rw [he]
      dsimp only [behind]
      split
      · rfl
      · rfl

/-- **The calls of `fn->put` are those for the items**, until one of them fails. -/
theorem vPrintf_script (format : List Char) (args : List Arg) (o : Out) :
    vPrintf format args o =
      (printAll (script format args).1 o).bind (stopWith (script format args).2) := by
  induction hn : format.length using Nat.strong_induction_on generalizing format args o with
  | _ n ih =>
    rcases format with - | ⟨c, tail⟩
    · rw [vPrintf_nil, script_nil]
      rfl
    · by_cases hc : c = '%'
      · subst hc
        rw [vPrintf_percent, script_percent]
        cases hin : innPrintf .init tail args with
        | error e => rfl
        | ok r =>
          obtain ⟨ch, f, rest, as⟩ := r
          have hlt := innPrintf_le hin
          dsimp only
          rw [convert_items]
          cases hconv : convItems ch f as with
          | error e => rfl
          | ok r =>
            obtain ⟨as', items⟩ := r
            dsimp only [perform, behind]
            rw [printAll_append, except_bind_assoc]
            cases printAll items o with
            | error e => rfl
            | ok o' => exact ih rest.length (by rw [← hn, List.length_cons]; omega) rest as' o' rfl
      · have hsplit := List.takeWhile_append_dropWhile (p := (· ≠ '%')) (l := c :: tail)
        have ht : ∀ x ∈ (c :: tail).takeWhile (· ≠ '%'), x ≠ '%' := fun x hx => by
          simpa using List.mem_takeWhile_imp hx
        have hne : (c :: tail).takeWhile (· ≠ '%') ≠ [] := by
          rw [List.takeWhile_cons_of_pos (by simpa using hc)]
          exact List.cons_ne_nil _ _
        have hrest : ∀ x ∈ ((c :: tail).dropWhile (· ≠ '%')).head?, x = '%' := fun x hx => by
          have h := List.head?_dropWhile_not (· ≠ '%') (c :: tail)
          rw [Option.mem_def.1 hx] at h
          simpa using h
        have hpos := List.length_pos_of_ne_nil hne
        have hlen := congrArg List.length hsplit
        rw [List.length_append, hn] at hlen
        rw [← hsplit, vPrintf_text ht hne hrest, script_text ht hne hrest, printAll,
          except_bind_assoc]
        congr 1
        funext o'
        exact ih _ (by omega) _ args o' rfl

/-! ## The 32 bits of `len` -/

/-- `len` behind pieces of these lengths, `none` if a test stops the call. -/
def tally : Nat → List Nat → Option Nat
  | len, [] => some len
  | len, n :: ns =>
    if 2 ^ 63 - 1 < n ∨ (len + n) % 2 ^ 32 < len then none else tally ((len + n) % 2 ^ 32) ns

theorem tally_append (len : Nat) (xs ys : List Nat) :
    tally len (xs ++ ys) = (tally len xs).bind fun n => tally n ys := by
  induction xs generalizing len with
  | nil => rfl
  | cons x xs ih =>
    rw [List.cons_append, tally, tally]
    split
    · rfl
    · exact ih _

theorem tally_lt {len n : Nat} {ns : List Nat} (h : tally len ns = some n) (hl : len < 2 ^ 32) :
    n < 2 ^ 32 := by
  induction ns generalizing len with
  | nil => rw [← Option.some.inj h]; exact hl
  | cons x xs ih =>
    rw [tally] at h
    split at h
    · cases h
    · exact ih h (Nat.mod_lt _ (by decide))

/-- The counter is exact while the pieces are shorter than 2^32. -/
theorem tally_exact {len n : Nat} {ns : List Nat} (h : tally len ns = some n) (hl : len < 2 ^ 32)
    (hs : ∀ k ∈ ns, k < 2 ^ 32) : n = len + ns.sum := by
  induction ns generalizing len with
  | nil => rw [← Option.some.inj h]; rfl
  | cons x xs ih =>
    have hx := hs x List.mem_cons_self
    rw [tally] at h
    split at h
    · cases h
    · rename_i hno
      have hmod : (len + x) % 2 ^ 32 = len + x := by omega
      rw [hmod] at h
      rw [ih h (by omega) fun k hk => hs k (List.mem_cons_of_mem x hk), List.sum_cons, Nat.add_assoc]

/-- What a write adds to `len` and to the chunks: pieces of these lengths. -/
def Tallies (F : Out → Except (Fault × Out) Out) (ns : List Nat) : Prop :=
  ∀ o : Out, o.len < 2 ^ 32 →
    (tally o.len ns = none → ∃ p, F o = .error (.minusOne, p)) ∧
    ∀ n, tally o.len ns = some n →
      ∃ cs, F o = .ok ⟨n, o.chunks ++ cs⟩ ∧ cs.flatten.length = ns.sum

theorem tallies_ok : Tallies .ok [] := fun o _ =>
  ⟨fun h => absurd h (Option.some_ne_none _), fun n h =>
    ⟨[], by rw [← Option.some.inj h, List.append_nil], rfl⟩⟩

theorem Tallies.bind {F G : Out → Except (Fault × Out) Out} {xs ys : List Nat}
    (hF : Tallies F xs) (hG : Tallies G ys) : Tallies (fun o => (F o).bind G) (xs ++ ys) := by
  intro o ho
  obtain ⟨hnone, hsome⟩ := hF o ho
  rw [tally_append]
  cases hx : tally o.len xs with
  | none =>
    obtain ⟨p, hp⟩ := hnone hx
    refine ⟨fun _ => ⟨p, ?_⟩, fun n h => by cases h⟩
    show (F o).bind G = _
    rw [hp]
    rfl
  | some k =>
    obtain ⟨cs, hcs, hlen⟩ := hsome k hx
    obtain ⟨hnone', hsome'⟩ := hG ⟨k, o.chunks ++ cs⟩ (tally_lt hx ho)
    refine ⟨fun h => ?_, fun n h => ?_⟩
    · obtain ⟨p, hp⟩ := hnone' h
      refine ⟨p, ?_⟩
      show (F o).bind G = _
      rw [hcs]
      exact hp
    · obtain ⟨cs', hcs', hlen'⟩ := hsome' n h
      refine ⟨cs ++ cs', ?_, ?_⟩
      · show (F o).bind G = _
        rw [hcs, ← List.append_assoc]
        exact hcs'
      · rw [List.flatten_append, List.length_append, hlen, hlen', List.sum_append]

theorem tallies_bWrite (buf : List Char) : Tallies (bWrite buf) [buf.length] := by
  intro o ho
  unfold bWrite
  rw [tally]
  by_cases h : 2 ^ 63 - 1 < buf.length ∨ (o.len + buf.length) % 2 ^ 32 < o.len
  · rw [if_pos h, if_pos h]
    exact ⟨fun _ => ⟨o, rfl⟩, fun n h' => by cases h'⟩
  · rw [if_neg h, if_neg h]
    refine ⟨fun h' => (by cases h'), fun n h' => ⟨[buf], ?_, by simp⟩⟩
    rw [← Option.some.inj h']

/-- The piece of `write_pad`. -/
def padSizes (n : Nat) : List Nat := if n = 0 ∨ 2 ^ 31 ≤ n then [] else [n]

theorem tallies_writePad (n : Nat) (c : Char) : Tallies (writePad n c) (padSizes n) := by
  unfold padSizes
  by_cases hn : n = 0 ∨ 2 ^ 31 ≤ n
  · rw [if_pos hn]
    intro o ho
    rw [writePad, if_pos hn]
    exact tallies_ok o ho
  · rw [if_neg hn]
    intro o ho
    rw [writePad, if_neg hn, tally]
    by_cases h : (o.len + n) % 2 ^ 32 < n
    · rw [if_pos h, if_pos (by omega)]
      exact ⟨fun _ => ⟨o, rfl⟩, fun n h' => by cases h'⟩
    · rw [if_neg h, if_neg (by omega)]
      refine ⟨fun h' => (by cases h'), fun k h' =>
        ⟨padChunks n (if c = '0' then '0' else ' '), ?_, ?_⟩⟩
      · rw [← Option.some.inj h']
      · rw [flatten_padChunks, List.length_replicate, List.sum_singleton]

/-- The piece of a call of `write_pad` under a condition. -/
def padSizesIf (b : Bool) (n : Nat) : List Nat := if b then padSizes n else []

theorem tallies_writePadIf (b : Bool) (n : Nat) (c : Char) :
    Tallies (writePadIf b n c) (padSizesIf b n) := by
  cases b with
  | false => exact tallies_ok
  | true => exact tallies_writePad n c

/-- The lengths of the pieces at `print_out`. -/
def outSizes (f : Flags) (inSign : Bool) (s : List Char) : List Nat :=
  if f.width = 0 ∧ f.preci = 0 then [s.length]
  else
    let todo := if 0 < f.hash then f.hash.toNat else if inSign then 1 else 0
    let sign := s.take todo
    let s := s.drop todo
    let width := CInt.usub 32 f.width todo
    let width := if f.dot ∧ width = 0 then f.preci else width
    let preci := if f.dot then f.preci else s.length % 2 ^ 32
    padSizesIf (!f.left && f.padwith = ' ') (CInt.usub 32 width preci) ++
      ((if todo = 0 then [] else [sign.length]) ++
      (padSizesIf (!f.left && f.padwith ≠ ' ') (CInt.usub 32 width preci) ++
      (padSizes (CInt.usub 64 preci s.length % 2 ^ 32) ++
      ([s.length] ++ padSizesIf f.left (CInt.usub 32 width preci)))))

theorem tallies_unless (b : Prop) [Decidable b] (buf : List Char) :
    Tallies (fun o => if b then .ok o else bWrite buf o) (if b then [] else [buf.length]) := by
  by_cases h : b
  · simp only [if_pos h]
    exact tallies_ok
  · simp only [if_neg h]
    exact tallies_bWrite buf

theorem tallies_printOut (f : Flags) (inSign : Bool) (c : Char) (s : List Char) :
    Tallies (printOut f inSign c s) (outSizes f inSign s) := by
  unfold outSizes
  by_cases h0 : f.width = 0 ∧ f.preci = 0
  · rw [if_pos h0]
    intro o ho
    rw [printOut, if_pos h0]
    exact tallies_bWrite s o ho
  · rw [if_neg h0]
    intro o ho
    rw [printOut, if_neg h0]
    exact (tallies_writePadIf _ _ _).bind ((tallies_unless _ _).bind ((tallies_writePadIf _ _ _).bind
      ((tallies_writePad _ _).bind ((tallies_bWrite _).bind (tallies_writePadIf _ _ _))))) o ho

/-- The lengths of the pieces of an item. -/
def Item.sizes : Item → List Nat
  | .text buf => [buf.length]
  | .field f inSign _ s => outSizes f inSign s

theorem tallies_item (item : Item) : Tallies item.print item.sizes := by
  cases item with
  | text buf => exact tallies_bWrite buf
  | field f inSign c s => exact tallies_printOut f inSign c s

theorem tallies_items (items : List Item) : Tallies (printAll items) (items.flatMap Item.sizes) := by
  induction items with
  | nil => exact tallies_ok
  | cons item items ih =>
    rw [List.flatMap_cons]
    exact (tallies_item item).bind ih

/-! ## What is returned -/

/-- The `int` that `__v_printf` returns, `none` where the arguments run out. -/
def returned : Except (Fault × Out) Out → Option Int
  | .ok o => some (CInt.conv 32 o.len)
  | .error (.minusOne, _) => some (-1)
  | .error (.noArg, _) => none

/-- The number of bytes handed to `fn->put`. -/
def handed : Except (Fault × Out) Out → Nat
  | .ok o => o.chunks.flatten.length
  | .error (_, o) => o.chunks.flatten.length

/-- A number that is not negative is the number of bytes handed to `fn->put`. -/
def CountsOutput (format : List Char) (args : List Arg) : Prop :=
  ∀ n, returned (vPrintf format args ⟨0, []⟩) = some n → 0 ≤ n →
    (handed (vPrintf format args ⟨0, []⟩) : Int) = n

/-- The lengths of all pieces of a format. -/
def sizes (format : List Char) (args : List Arg) : List Nat :=
  (script format args).1.flatMap Item.sizes

/-- No piece has 2^32 bytes; or the format ends in a fault, or the pieces overflow 32 bits one after
the other, or come to a negative `int`. -/
def PiecesFit (format : List Char) (args : List Arg) : Prop :=
  (∀ k ∈ sizes format args, k < 2 ^ 32) ∨ (script format args).2 ≠ none ∨
    ∀ n, tally 0 (sizes format args) = some n → 2 ^ 31 ≤ n

/-- A call that fails returns no number of bytes. -/
theorem countsOutput_error {format : List Char} {args : List Arg} {e : Fault × Out}
    (h : vPrintf format args ⟨0, []⟩ = .error e) : CountsOutput format args := by
  intro n hn h0
  rw [h] at hn
  obtain ⟨e | e, o⟩ := e
  · rw [← Option.some.inj hn] at h0
    exact absurd h0 (by decide)
  · cases hn

theorem countsOutput_ok {format : List Char} {args : List Arg} {o : Out}
    (h : vPrintf format args ⟨0, []⟩ = .ok o) (ho : o.len < 2 ^ 32) :
    CountsOutput format args ↔ (o.len < 2 ^ 31 → o.chunks.flatten.length = o.len) := by
  unfold CountsOutput
  rw [h]
  constructor
  · intro hc hlt
    have := hc _ rfl (by rw [CInt.conv_low (by decide) hlt]; omega)
    rw [CInt.conv_low (by decide) hlt] at this
    exact Int.ofNat_inj.1 this
  · intro hc n hn h0
    rw [← Option.some.inj hn] at h0 ⊢
    have hlt : o.len < 2 ^ 31 := by
      by_contra hge
      have := CInt.conv_high (by decide) (Nat.le_of_not_lt hge) ho
      omega
    rw [CInt.conv_low (by decide) hlt]
    exact congrArg _ (hc hlt)

/-- **The number returned counts the output exactly if no piece reaches 2^32 bytes** in a call that
returns a number. -/
theorem countsOutput_iff (format : List Char) (args : List Arg) :
    CountsOutput format args ↔ PiecesFit format args := by
  have hrun := vPrintf_script format args ⟨0, []⟩
  obtain ⟨hnone, hsome⟩ := tallies_items (script format args).1 ⟨0, []⟩ (by decide)
  unfold PiecesFit sizes
  generalize (script format args).1 = items at hrun hnone hsome ⊢
  generalize (script format args).2 = stop at hrun ⊢
  cases ht : tally 0 (items.flatMap Item.sizes) with
  | none =>
    obtain ⟨p, hp⟩ := hnone ht
    rw [hp] at hrun
    exact iff_of_true (countsOutput_error hrun) (.inr (.inr fun n h => by cases h))
  | some k =>
    obtain ⟨cs, hcs, hlen⟩ := hsome k ht
    rw [hcs] at hrun
    cases stop with
    | some e => exact iff_of_true (countsOutput_error hrun) (.inr (.inl (Option.some_ne_none e)))
    | none =>
      have hk := tally_lt ht (by decide)
      rw [countsOutput_ok hrun hk]
      show (k < 2 ^ 31 → ([] ++ cs).flatten.length = k) ↔ _
      rw [List.nil_append, hlen]
      constructor
      · intro h
        by_cases hlt : k < 2 ^ 31
        · refine .inl fun j hj => ?_
          have := List.le_sum_of_mem hj
          have := h hlt
          omega
        · refine .inr (.inr fun n hn => ?_)
          rw [← Option.some.inj hn]
          omega
      · rintro (h | h | h) hlt
        · have := tally_exact ht (by decide) h
          omega
        · exact absurd rfl h
        · have := h k rfl
          omega

/-- A string of 2^32 bytes is handed over and counted as none. -/
theorem count_of_string {s : List Char} (h : s.length = 2 ^ 32) :
    ¬CountsOutput ['%', 's'] [.str s] := by
  have hrun : vPrintf ['%', 's'] [.str s] ⟨0, []⟩ = .ok ⟨0, [s]⟩ := by
    rw [vPrintf_s, bWrite, h]
    rw [if_neg (by decide)]
    exact vPrintf_nil [] _
  rw [countsOutput_ok hrun (show 0 < 2 ^ 32 by decide)]
  intro hc
  have := hc (show 0 < 2 ^ 31 by decide)
  rw [List.flatten_singleton, h] at this
  exact absurd this (show (2 : Nat) ^ 32 ≠ 0 by decide)

/-- 2^32 times the letter `a` for `%s`: 0 is returned. -/
theorem countsOutput_string : ¬CountsOutput ['%', 's'] [.str (List.replicate (2 ^ 32) 'a')] :=
  count_of_string List.length_replicate

end Dietlibc.Printf
