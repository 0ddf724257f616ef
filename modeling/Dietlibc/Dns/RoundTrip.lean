import Dietlibc.Dns.Decode
import Dietlibc.Dns.Query
import Dietlibc.Dns.Labels

/-!
# A query read back

`res_mkquery` writes the non-empty labels of a name, each behind its length, and a terminator;
`decodename` reads them back. Without a label the two differ: `decodename` does not move over
the root, and for the empty string `res_mkquery` leaves the terminator unset.
-/

namespace Dietlibc.Dns

open Mem

variable {y : List UInt8} {x len : Nat} {m m' : Mem} {ls : List (List UInt8)}

/-! ## Names as strings -/

/-- The labels of a name in dot notation. -/
def labels (dname : List UInt8) : List (List UInt8) := (dname.splitOn dot).filter (· ≠ [])

/-- The labels, each behind its length. -/
def wire (ls : List (List UInt8)) : List UInt8 := ls.flatMap fun l => UInt8.ofNat l.length :: l

theorem labels_dot (y : List UInt8) : labels (dot :: y) = labels y := by
  unfold labels
  rw [List.splitOn_cons_eq_if_modifyHead, if_pos (by simp), List.filter_cons_of_neg (by simp)]

theorem labels_skip (y : List UInt8) : labels (y.dropWhile (· = dot)) = labels y := by
  induction y with
  | nil => rfl
  | cons c y ih =>
    by_cases hc : c = dot
    · rw [List.dropWhile_cons_of_pos (by simpa using hc), ih, hc, labels_dot]
    · rw [List.dropWhile_cons_of_neg (by simpa using hc)]

/-- A label before the end or before a dot. -/
theorem labels_append {l t : List UInt8} (hl : dot ∉ l) (hne : l ≠ [])
    (ht : t = [] ∨ ∃ t', t = dot :: t') : labels (l ++ t) = l :: labels t := by
  rcases ht with rfl | ⟨t', rfl⟩
  · rw [List.append_nil, labels, List.splitOn_eq_singleton hl, List.filter_cons_of_pos (by simpa)]
    rfl
  · rw [labels_dot, labels, List.splitOn_append_cons_self_of_not_mem hl,
      List.filter_cons_of_pos (by simpa)]
    rfl

theorem dropWhile_ne_dot (y : List UInt8) :
    y.dropWhile (· ≠ dot) = [] ∨ ∃ t, y.dropWhile (· ≠ dot) = dot :: t := by
  induction y with
  | nil => exact .inl rfl
  | cons c y ih =>
    by_cases hc : c = dot
    · subst hc
      exact .inr ⟨y, List.dropWhile_cons_of_neg (by simp)⟩
    · rw [List.dropWhile_cons_of_pos (by simpa using hc)]
      exact ih

theorem not_mem_takeWhile (y : List UInt8) : dot ∉ y.takeWhile (· ≠ dot) := by
  intro hm
  simpa using List.mem_takeWhile_imp hm

/-- Behind the dots a label starts, or the name ends. -/
theorem takeWhile_skip (y : List UInt8) (h : (y.dropWhile (· = dot)).takeWhile (· ≠ dot) = []) :
    y.dropWhile (· = dot) = [] := by
  induction y with
  | nil => rfl
  | cons c y ih =>
    by_cases hc : c = dot
    · rw [List.dropWhile_cons_of_pos (by simpa using hc)] at h ⊢
      exact ih h
    · rw [List.dropWhile_cons_of_neg (by simpa using hc),
        List.takeWhile_cons_of_pos (by simpa using hc)] at h
      cases h

/-- The next label, as the loop of `res_mkquery` finds it. -/
theorem labels_step (y : List UInt8) : labels y =
    if (y.dropWhile (· = dot)).takeWhile (· ≠ dot) = [] then []
    else (y.dropWhile (· = dot)).takeWhile (· ≠ dot) ::
      labels ((y.dropWhile (· = dot)).dropWhile (· ≠ dot)) := by
  rw [← labels_skip y]
  split
  · rename_i h0
    rw [takeWhile_skip y h0]
    rfl
  · rename_i hne
    conv_lhs => rw [← List.takeWhile_append_dropWhile (p := (· ≠ dot)) (l := y.dropWhile (· = dot))]
    exact labels_append (not_mem_takeWhile _) hne (dropWhile_ne_dot _)

/-! ## The bytes of a query -/

theorem length_wire_cons (l : List UInt8) (ls : List (List UInt8)) :
    (wire (l :: ls)).length = l.length + 1 + (wire ls).length := by
  simp only [wire, List.flatMap_cons, List.length_append, List.length_cons]

/-- A label behind its length, and what was written after it. -/
theorem load_label {l w : List UInt8} (m : Mem) (hw : m'.load (x + 1 + l.length) w.length = w)
    (hm : ∀ i < x + 1 + l.length,
      m' i = (m.store x [UInt8.ofNat l.length]).store (x + 1) l i) :
    m'.load x (l.length + 1 + w.length) = UInt8.ofNat l.length :: l ++ w := by
  have h1 : m'.load x 1 = [UInt8.ofNat l.length] := by
    have h0 : m' x = UInt8.ofNat l.length := by
      rw [hm x (by omega), store_out (by omega)]
      simp [store]
    simpa [load_cons] using h0
  have h2 : m'.load (x + 1) l.length = l := by
    rw [load_congr (m := (m.store x [UInt8.ofNat l.length]).store (x + 1) l)
      (fun i hi => hm _ (by omega)), load_store_self rfl]
  rw [show l.length + 1 + w.length = 1 + (l.length + w.length) by omega, load_add, load_add, h1, h2,
    hw]
  rfl

/-- The loop writes the labels, and a terminator unless the name is empty. -/
theorem nameLoop_wire (y : List UInt8) (x len : Nat) (m : Mem)
    (h63 : ∀ l ∈ labels y, l.length ≤ 63) (h254 : len + (wire (labels y)).length ≤ 254) :
    ∃ m', nameLoop y x len m = some (x + (wire (labels y)).length, m') ∧
      m'.load x (wire (labels y)).length = wire (labels y) ∧ (∀ i < x, m' i = m i) ∧
      (y ≠ [] → m' (x + (wire (labels y)).length) = 0) := by
  induction hn : y.length using Nat.strong_induction_on generalizing y x len m with
  | _ n ih =>
    subst hn
    rw [nameLoop]
    by_cases hy : y = []
    · subst hy
      exact ⟨m, rfl, rfl, fun _ _ => rfl, fun h => absurd rfl h⟩
    · rw [if_neg hy]
      dsimp only
      have hstep := labels_step y
      have hlt := fun h => dropWhile_lt (y := y) h
      generalize (y.dropWhile (· = dot)).takeWhile (· ≠ dot) = l at *
      generalize (y.dropWhile (· = dot)).dropWhile (· ≠ dot) = t at *
      by_cases hl : l = []
      · subst hl
        rw [if_pos rfl] at hstep
        rw [hstep, if_neg (by decide), dif_pos rfl]
        refine ⟨_, rfl, rfl, fun i hi => store_out (by omega), fun _ => ?_⟩
        simp [wire, store]
      · rw [if_neg hl] at hstep
        rw [hstep, length_wire_cons] at h254
        rw [hstep] at h63
        have hl63 := h63 l List.mem_cons_self
        rw [hstep, length_wire_cons, if_neg (by omega), dif_neg hl, if_neg (by omega)]
        -- what follows the label
        obtain ⟨m3, he, hload, hbelow, hend⟩ : ∃ m3,
            (if t = [] then some (x + 1 + l.length,
              ((m.store x [UInt8.ofNat l.length]).store (x + 1) l).store (x + 1 + l.length) [0])
            else nameLoop t (x + 1 + l.length) (len + (l.length + 1))
              ((m.store x [UInt8.ofNat l.length]).store (x + 1) l)) =
              some (x + 1 + l.length + (wire (labels t)).length, m3) ∧
            m3.load (x + 1 + l.length) (wire (labels t)).length = wire (labels t) ∧
            (∀ i < x + 1 + l.length,
              m3 i = (m.store x [UInt8.ofNat l.length]).store (x + 1) l i) ∧
            m3 (x + 1 + l.length + (wire (labels t)).length) = 0 := by
          by_cases ht : t = []
          · subst ht
            refine ⟨_, if_pos rfl, rfl, fun i hi => store_out (by omega), ?_⟩
            simp [labels, wire, store]
          · obtain ⟨m3, he, hload, hbelow, hend⟩ := ih t.length (hlt hl) t (x + 1 + l.length)
              (len + (l.length + 1)) _ (fun a ha => h63 a (List.mem_cons_of_mem _ ha)) (by omega) rfl
            exact ⟨m3, by rw [if_neg ht]; exact he, hload, hbelow, hend ht⟩
        have hx : x + (l.length + 1 + (wire (labels t)).length) =
            x + 1 + l.length + (wire (labels t)).length := by omega
        refine ⟨m3, by rw [he, hx], load_label m hload hbelow, fun i hi => ?_, fun _ => ?_⟩
        · rw [hbelow i (by omega), store_out (by omega), store_out (by omega)]
        · rw [hx]
          exact hend

/-- The bytes of a query: 12 of the header, the labels, the terminator, and the type and class. -/
theorem resMkquery_eq (rand : Nat) (recurse : Bool) (op : Int) {dname : List UInt8}
    (cls type : Int) {buflen : Int} (packet : Mem) (h63 : ∀ l ∈ labels dname, l.length ≤ 63)
    (h254 : (wire (labels dname)).length ≤ 254)
    (hbuf : (17 + (wire (labels dname)).length : Int) ≤ buflen) :
    ∃ hdr z, resMkquery rand recurse op dname cls type buflen packet =
      some (hdr ++ (wire (labels dname) ++ z :: [0, UInt8.ofInt type, 0, UInt8.ofInt cls])) ∧
      hdr.length = 12 ∧ (dname ≠ [] → z = 0) := by
  obtain ⟨m', he, hload, -, hend⟩ := nameLoop_wire dname 12 0 (header rand recurse op packet) h63
    (by omega)
  unfold resMkquery
  rw [he]
  dsimp only
  generalize hW : (wire (labels dname)).length = W at *
  rw [if_neg (by push_cast; omega)]
  refine ⟨(m'.store (12 + W + 1) [0, UInt8.ofInt type, 0, UInt8.ofInt cls]).load 0 12,
    m' (12 + W), ?_, length_load, hend⟩
  have hmid : (m'.store (12 + W + 1) [0, UInt8.ofInt type, 0, UInt8.ofInt cls]).load 12 W =
      wire (labels dname) := by
    rw [load_store_out (.inl (by omega)), hload]
  have hz : (m'.store (12 + W + 1) [0, UInt8.ofInt type, 0, UInt8.ofInt cls]).load (12 + W) 1 =
      [m' (12 + W)] := by
    rw [load_store_out (.inl (by omega))]
    simp [load]
  have htail : (m'.store (12 + W + 1) [0, UInt8.ofInt type, 0, UInt8.ofInt cls]).load
      (12 + W + 1) 4 = [0, UInt8.ofInt type, 0, UInt8.ofInt cls] := load_store_self rfl
  rw [show 12 + W + 5 = 12 + (W + (1 + 4)) by omega, load_add, load_add, load_add, Nat.zero_add,
    hmid, hz, htail]
  rfl

/-! ## Reading it back -/

theorem ofNat_label {n : Nat} (h1 : 1 ≤ n) (h63 : n ≤ 63) :
    UInt8.ofNat n ≠ 0 ∧ UInt8.ofNat n >>> 6 = 0 ∧ (UInt8.ofNat n).toNat = n := by
  have h : ∀ k < 64, 1 ≤ k →
      UInt8.ofNat k ≠ 0 ∧ UInt8.ofNat k >>> 6 = 0 ∧ (UInt8.ofNat k).toNat = k := by
    decide
  exact h n (by omega) h1

/-- The labels of a wire form are a run. -/
theorem run_wire (pre : List UInt8) {post : List UInt8} (hpost : post ≠ [])
    (hls : ∀ l ∈ ls, l ≠ [] ∧ l.length ≤ 63) :
    Run (pre ++ (wire ls ++ post)) pre.length ls (pre.length + (wire ls).length) := by
  induction ls generalizing pre with
  | nil => exact .nil _
  | cons l ls ih =>
    obtain ⟨hne, h63⟩ := hls l List.mem_cons_self
    obtain ⟨hb0, h6, hn⟩ := ofNat_label (List.length_pos_iff.mpr hne) h63
    have hp : pre ++ (wire (l :: ls) ++ post) =
        (pre ++ UInt8.ofNat l.length :: l) ++ (wire ls ++ post) := by
      simp [wire]
    have hrun := ih (pre ++ UInt8.ofNat l.length :: l)
      fun a ha => hls a (List.mem_cons_of_mem _ ha)
    rw [← hp] at hrun
    have hpos : (pre ++ UInt8.ofNat l.length :: l).length =
        pre.length + (UInt8.ofNat l.length).toNat + 1 := by
      rw [hn, List.length_append, List.length_cons]
      omega
    have hend : (pre ++ UInt8.ofNat l.length :: l).length + (wire ls).length =
        pre.length + (wire (l :: ls)).length := by
      rw [length_wire_cons, List.length_append, List.length_cons]
      omega
    rw [hend, hpos] at hrun
    have hb : (pre ++ (wire (l :: ls) ++ post))[pre.length]? = some (UInt8.ofNat l.length) := by
      simp [wire]
    have hin : pre.length + (UInt8.ofNat l.length).toNat + 1 <
        (pre ++ (wire (l :: ls) ++ post)).length := by
      have := List.length_pos_iff.mpr hpost
      rw [hn, List.length_append, List.length_append, length_wire_cons]
      omega
    have hlab : ((pre ++ (wire (l :: ls) ++ post)).drop (pre.length + 1)).take
        (UInt8.ofNat l.length).toNat = l := by
      rw [hn, show pre ++ (wire (l :: ls) ++ post) =
          (pre ++ [UInt8.ofNat l.length]) ++ (l ++ (wire ls ++ post)) by simp [wire],
        List.drop_left' (by simp), List.take_left' rfl]
    have hcons := Run.cons hb hb0 h6 hin hrun
    rw [hlab] at hcons
    exact hcons

theorem dropLast_dotted (hne : ls ≠ []) : (dotted ls).dropLast = [dot].intercalate ls := by
  induction ls with
  | nil => exact absurd rfl hne
  | cons l ls ih =>
    cases ls with
    | nil => simp [dotted]
    | cons l' ls =>
      have hd : dotted (l :: l' :: ls) = l ++ [dot] ++ dotted (l' :: ls) := by simp [dotted, dot]
      have hnil : dotted (l' :: ls) ≠ [] := by simp [dotted]
      rw [hd, List.dropLast_append_of_ne_nil hnil, ih (by simp), List.intercalate_cons_cons]

theorem length_dotted (ls : List (List UInt8)) : (dotted ls).length = (wire ls).length := by
  induction ls with
  | nil => rfl
  | cons l ls ih => rw [length_dotted_cons, length_wire_cons, ih]

/-- Labels and a terminator are read back, and the offset is that behind the terminator. -/
theorem decodename_wire (pre post : List UInt8) {maxlen : Nat} (hne : ls ≠ [])
    (hls : ∀ l ∈ ls, l ≠ [] ∧ l.length ≤ 63) (hroom : (wire ls).length ≤ maxlen)
    (hfit : pre.length + (wire ls).length + 1 < 2 ^ 31) :
    decodename (pre ++ (wire ls ++ 0 :: post)) pre.length maxlen =
      .ok (pre.length + (wire ls).length + 1, [dot].intercalate ls ++ [0]) := by
  have hrun := run_wire pre (show 0 :: post ≠ [] by simp) hls
  have hstart := hrun.head hne
  have hz : (pre ++ (wire ls ++ 0 :: post))[pre.length + (wire ls).length]? = some 0 := by
    simp
  have hpos : 0 < (wire ls).length := by omega
  have hjoin := dropLast_dotted hne
  have hl := length_dotted ls
  generalize pre ++ (wire ls ++ 0 :: post) = p at *
  generalize pre.length = o at *
  generalize (wire ls).length = W at *
  rw [decodename, if_neg (by omega),
    decodeLoop_run (c := ⟨o, o, [], o, false⟩) hrun hne (by simpa [hl] using hroom)]
  have hstop : turn p maxlen (Cursor.along ⟨o, o, [], o, false⟩ p ls (o + W)) = .stop :=
    turn_zero hz
  have hafter : CInt.conv 32 ((o + W + 1 : Nat) : Int) = (o + W + 1 : Nat) :=
    CInt.conv_of_fits (by decide) (CInt.fits32.mpr (by omega))
  have hd : (dotted ls).dropLast.length < maxlen := by
    rw [List.length_dropLast]
    omega
  rw [hjoin] at hd
  rw [decodeLoop, hstop]
  simp only [finish, Cursor.along, List.nil_append, if_true, hz, hjoin, hd, hstart.1, hafter]
  push_cast
  rfl

/-- A first byte that is not 0 takes the offset past the next byte. -/
theorem decodename_first {p : Packet} {o maxlen : Nat} {v : Int} {dest : List UInt8}
    (hp : p.length < 2 ^ 31) (ho : o < p.length) (hm : 1 ≤ maxlen) (h0 : p[o]? ≠ some 0)
    (h : decodename p o maxlen = .ok (v, dest)) : v = -1 ∨ o + 1 < v := by
  have hc : CursorOk p maxlen o ⟨o, o, [], o, false⟩ :=
    ⟨ho, ho, Nat.zero_le _, nofun, .inr ⟨rfl, rfl, h0⟩, le_of_lt ho⟩
  rw [decodename, if_neg (by omega), decodeLoop] at h
  cases ht : turn p maxlen ⟨o, o, [], o, false⟩ with
  | again c' =>
    have hc' := turn_ok hc ht
    have hafter : o + 1 < c'.after := by
      rcases turn_again ht with ⟨b, lo, -, -, -, -, rfl⟩ | ⟨b, -, hb0, -, -, -, rfl⟩
      · simp [Cursor.follow]
      · have hb : 0 < b.toNat := by
          rw [Nat.pos_iff_ne_zero]
          intro h
          exact hb0 (UInt8.toNat_inj.mp h)
        simp only [Cursor.copy]
        split
        · split <;> omega
        · omega
    rw [ht] at h
    have hv := decodeLoop_value hp { hc' with after_gt := .inl hafter } h
    exact hv
  | stop => exact absurd ((turn_ends hc.tmp_lt).1 ht) h0
  | minusOne =>
    rw [ht] at h
    exact .inl (Prod.mk.inj (Except.ok.inj h)).1.symm
  | fault =>
    rw [ht] at h
    cases h

/-- The root is read with the offset left where it starts. -/
theorem decodename_zero {p : Packet} {o maxlen : Nat} (hfit : o < 2 ^ 31) (hm : 1 ≤ maxlen)
    (h0 : p[o]? = some 0) : decodename p o maxlen = .ok (o, [0]) := by
  have ht : turn p maxlen ⟨o, o, [], o, false⟩ = .stop := turn_zero h0
  have hafter : CInt.conv 32 (o : Int) = o :=
    CInt.conv_of_fits (by decide) (CInt.fits32.mpr (by omega))
  rw [decodename, if_neg (by omega), decodeLoop, ht]
  simp only [finish, Bool.false_eq_true, if_false, List.length_nil, List.nil_append, hafter]
  rw [if_pos (by omega)]

/-- The question that a query asks: the name is read back from offset 12 up to the type and class,
which are its last four bytes. -/
def Asks (buf : List UInt8) (ls : List (List UInt8)) (type cls : Int) : Prop :=
  decodename buf 12 256 = .ok ((buf.length : Int) - 4, [dot].intercalate ls ++ [0]) ∧
    (buf.drop (buf.length - 4)).map (fun b => (b.toNat : Int)) = [0, type, 0, cls]

theorem toNat_ofInt {n : Int} (h : 0 ≤ n ∧ n < 256) : ((UInt8.ofInt n).toNat : Int) = n := by
  simp only [UInt8.ofInt, UInt8.toNat_ofNat']
  omega

theorem wire_nonempty {dname : List UInt8} {l : List UInt8} (h : l ∈ labels dname) : l ≠ [] := by
  simpa using (List.mem_filter.mp h).2

/-- **Queries read back.** For a name with labels of at most 63 bytes, 254 in the wire form, and a
large enough buffer, the query asks for the labels exactly when there is one. -/
theorem resMkquery_asks_iff (rand : Nat) (recurse : Bool) (op : Int) (dname : List UInt8)
    (h63 : ∀ l ∈ labels dname, l.length ≤ 63) (h254 : (wire (labels dname)).length ≤ 254)
    (type cls : Int) (ht : 0 ≤ type ∧ type < 256) (hc : 0 ≤ cls ∧ cls < 256) (buflen : Int)
    (hbuf : (17 + (wire (labels dname)).length : Int) ≤ buflen) (packet : Mem) :
    (∃ buf, resMkquery rand recurse op dname cls type buflen packet = some buf ∧
      0 < buf.length ∧ Asks buf (labels dname) type cls) ↔ labels dname ≠ [] := by
  obtain ⟨hdr, z, he, hhdr, hz⟩ := resMkquery_eq rand recurse op cls type packet h63 h254 hbuf
  rw [he]
  simp only [Option.some.injEq, exists_eq_left']
  constructor
  · rintro ⟨-, hdec, -⟩ hnil
    rw [hnil] at hdec
    simp only [wire, List.flatMap_nil, List.nil_append] at hdec
    have hlen : (hdr ++ z :: [0, UInt8.ofInt type, 0, UInt8.ofInt cls]).length = 17 := by
      simp [hhdr]
    have hz12 : (hdr ++ z :: [0, UInt8.ofInt type, 0, UInt8.ofInt cls])[12]? = some z := by
      rw [← hhdr]
      simp
    rw [hlen] at hdec
    by_cases h0 : z = 0
    · rw [decodename_zero (by decide) (by decide) (by rw [hz12, h0])] at hdec
      exact absurd (Prod.mk.inj (Except.ok.inj hdec)).1 (by decide)
    · have hv := decodename_first (by rw [hlen]; decide) (by rw [hlen]; decide) (by decide)
        (by rw [hz12]; simpa using h0) hdec
      omega
  · intro hne
    have hd : dname ≠ [] := by
      rintro rfl
      exact hne (by decide)
    have hlen : (hdr ++ (wire (labels dname) ++ z ::
        [0, UInt8.ofInt type, 0, UInt8.ofInt cls])).length =
          17 + (wire (labels dname)).length := by
      simp [hhdr]
      omega
    rw [hz hd] at hlen ⊢
    refine ⟨by omega, ?_, ?_⟩
    · have hroom : (wire (labels dname)).length ≤ 256 := by omega
      have hdec := decodename_wire hdr [0, UInt8.ofInt type, 0, UInt8.ofInt cls] hne
        (fun l hl => ⟨wire_nonempty hl, h63 l hl⟩) hroom (by rw [hhdr]; omega)
      rw [hhdr] at hdec
      rw [hdec, hlen]
      congr 2
      push_cast
      omega
    · rw [hlen, show hdr ++ (wire (labels dname) ++ 0 :: [0, UInt8.ofInt type, 0, UInt8.ofInt cls]) =
          (hdr ++ (wire (labels dname) ++ [0])) ++ [0, UInt8.ofInt type, 0, UInt8.ofInt cls] by simp,
        List.drop_left' (by simp [hhdr]; omega)]
      simp only [List.map_cons, List.map_nil, toNat_ofInt ht, toNat_ofInt hc]
      rfl

theorem resMkquery_asks_iff_dot :
    (∃ buf, resMkquery 7 true 0 [97, 46] 1 28 512 (fun _ => 0) = some buf ∧ 0 < buf.length ∧
      Asks buf (labels [97, 46]) 28 1) ↔ labels [97, 46] ≠ [] :=
  resMkquery_asks_iff 7 true 0 [97, 46] (by decide) (by decide) 28 1 (by decide) (by decide) 512
    (by decide) (fun _ => 0)

/-- The query for `"."` has 17 bytes and its name ends at 13, but is read up to 12. -/
theorem resMkquery_root : ∃ buf, resMkquery 7 true 0 [46] 1 28 512 (fun _ => 0) = some buf ∧
    buf.length = 17 ∧ decodename buf 12 256 = .ok (12, [0]) ∧ ¬ Asks buf (labels [46]) 28 1 := by
  obtain ⟨hdr, z, he, hhdr, hz⟩ := resMkquery_eq 7 true 0 1 28 (fun _ => 0)
    (show ∀ l ∈ labels [46], l.length ≤ 63 by decide) (by decide) (show _ ≤ (512 : Int) by decide)
  rw [hz (by decide), show wire (labels [46]) = [] by decide, List.nil_append] at he
  have h12 : (hdr ++ 0 :: [0, UInt8.ofInt 28, 0, UInt8.ofInt 1])[12]? = some 0 := by
    rw [← hhdr]
    simp
  have hdec : decodename (hdr ++ 0 :: [0, UInt8.ofInt 28, 0, UInt8.ofInt 1]) 12 256 =
      .ok (12, [0]) := decodename_zero (by decide) (by decide) h12
  refine ⟨_, he, by simp [hhdr], hdec, ?_⟩
  rintro ⟨h, -⟩
  rw [hdec] at h
  have hv := (Prod.mk.inj (Except.ok.inj h)).1
  simp [hhdr] at hv

end Dietlibc.Dns
