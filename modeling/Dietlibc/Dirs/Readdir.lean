import Dietlibc.Base.CInt
import Mathlib.Data.List.Basic

/-!
# `readdir_r` and `seekdir`

The buffer of a `DIR` is the list of its bytes, and `ld` is an index into it. What the kernel does is a
parameter: it has a position in the listing, and gives batches of whole records from there, or an error.
`none` is undefined: an access outside the buffer, or outside `entry->d_name`.
-/

namespace Dietlibc.Dirs

/-- Where the fields of `struct linux_dirent` are on the target. `d_off` is there in `struct dirent` too.
Without a `d_type` it is the last byte of the record. -/
structure Layout where
  size : Nat
  big : Bool
  ino : Nat
  off : Nat
  offw : Nat
  reclen : Nat
  type : Option Nat
  name : Nat
  ino_le : ino ≤ off
  off_le : off + offw ≤ reclen
  reclen_le : reclen + 2 ≤ name
  type_lt : ∀ t ∈ type, t < name
  name_lt : name + 1 < size
  size_lt : size < 2 ^ 31

/-- `i386`. -/
def i386 : Layout :=
  ⟨4084, false, 4, 4, 4, 8, none, 10, by decide, by decide, by decide, by decide, by decide, by decide⟩

/-- `x86_64`. -/
def x86_64 : Layout :=
  ⟨4084, false, 4, 8, 8, 16, none, 18, by decide, by decide, by decide, by decide, by decide, by decide⟩

/-- `aarch64`, with `struct dirent64`. -/
def aarch64 : Layout :=
  ⟨4084, false, 8, 8, 8, 16, some 18, 19, by decide, by decide, by decide, by decide, by decide,
    by decide⟩

/-- The number in some bytes. -/
def number (big : Bool) (b : List UInt8) : Nat :=
  (if big then b else b.reverse).foldl (fun v c => v * 256 + c.toNat) 0

/-- The bytes of a number. -/
def bytes (big : Bool) : Nat → Nat → List UInt8
  | 0, _ => []
  | w + 1, v =>
    if big then bytes big w (v / 256) ++ [UInt8.ofNat v] else UInt8.ofNat v :: bytes big w (v / 256)

structure DIR where
  buf : List UInt8
  num : Nat
  cur : Nat

structure Dirent where
  d_ino : Nat
  d_off : Int
  d_reclen : Nat
  d_type : UInt8
  d_name : List UInt8

def load (b : List UInt8) (a w : Nat) : Option (List UInt8) :=
  if a + w ≤ b.length then some ((b.drop a).take w) else none

def store (b : List UInt8) (a : Nat) (v : List UInt8) : List UInt8 :=
  b.take a ++ v ++ b.drop (a + v.length)

/-- `ld->d_reclen`. -/
def dReclen (L : Layout) (b : List UInt8) (ld : Nat) : Option Nat :=
  (load b (ld + L.reclen) 2).map (number L.big)

/-- What `getdents` may do at a place in the listing: fail, find the end, or give some records. -/
inductive Answer (L : Layout) (ls : List (List UInt8)) (p : Nat) : Int → List UInt8 → Nat → Prop where
  | failed {res : Int} {b : List UInt8} (hres : res < 0) (hb : b.length < L.size) : Answer L ls p res b p
  | finished (hp : ls.length ≤ p) : Answer L ls p 0 [] p
  | batch {k : Nat} {b : List UInt8} (hk : 0 < k) (hp : p + k ≤ ls.length)
      (hb : b = ((ls.drop p).take k).flatten) (hsize : b.length < L.size) :
      Answer L ls p b.length b (p + k)

/-- A directory with its listing, behind a file descriptor. -/
structure Kernel (L : Layout) (ls : List (List UInt8)) where
  State : Type
  pos : State → Nat
  getdents : State → Int × List UInt8 × State
  lseek : State → Int → Bool × State
  getdents_answer : ∀ s, Answer L ls (pos s) (getdents s).1 (getdents s).2.1 (pos (getdents s).2.2)
  lseek_failed : ∀ s offset, (lseek s offset).1 = false → pos (lseek s offset).2 = pos s

/-- What the condition of `readdir_r` comes to: whether `getdents` is called, and the header it read. -/
structure Advance where
  more : Bool
  dir : DIR
  headers : List (Nat × Nat)

/-- `!d->num || d->cur >= d->num || (d->cur += ld->d_reclen)>=d->num`. -/
def advance (L : Layout) (d : DIR) : Option Advance :=
  if d.num = 0 ∨ d.num ≤ d.cur then some ⟨true, d, []⟩
  else
    (dReclen L d.buf d.cur).map fun n =>
      ⟨decide (d.num ≤ (d.cur + n) % 2 ^ 32), { d with cur := (d.cur + n) % 2 ^ 32 }, [(d.cur, d.num)]⟩

/-- The assignments to `*entry` from the record at `d->cur`. -/
def deliver (L : Layout) (d : DIR) (entry : Dirent) : Option (Option Dirent) :=
  (dReclen L d.buf d.cur).bind fun reclen =>
  if reclen < L.name + 1 then some none
  else
    (load d.buf d.cur L.ino).bind fun ino =>
    (load d.buf (d.cur + L.off) L.offw).bind fun off =>
    (load d.buf (d.cur + L.type.getD (reclen - 1)) 1).bind fun type =>
    (load d.buf (d.cur + L.name) (reclen - L.name)).bind fun name =>
    if reclen - L.name ≤ 256 then
      some (some ⟨number L.big ino, CInt.conv (8 * L.offw) (number L.big off), reclen, type.headD 0,
        name ++ entry.d_name.drop (reclen - L.name)⟩)
    else none

/-- What a call returns, what it got from `getdents` if it asked, and the headers that it read, each
with `d->num`. -/
structure Reply where
  rc : Int
  result : Option Dirent
  asked : Option Int
  headers : List (Nat × Nat)

structure Called (σ : Type) where
  reply : Reply
  dir : DIR
  kernel : σ

variable {L : Layout} {ls : List (List UInt8)}

/-- `readdir_r`. -/
def readdirR (K : Kernel L ls) (d : DIR) (entry : Dirent) (s : K.State) : Option (Called K.State) :=
  (advance L d).bind fun a =>
  if a.more then
    let res := (K.getdents s).1
    let buf := store a.dir.buf 0 (K.getdents s).2.1
    if res ≤ 0 then
      some ⟨⟨if res < 0 then 1 else 0, none, some res, a.headers⟩, { a.dir with buf },
        (K.getdents s).2.2⟩
    else
      (deliver L ⟨buf, res.toNat % 2 ^ 32, 0⟩ entry).map fun result =>
        ⟨⟨0, result, some res, a.headers ++ [(0, res.toNat % 2 ^ 32)]⟩, ⟨buf, res.toNat % 2 ^ 32, 0⟩,
          (K.getdents s).2.2⟩
  else
    (deliver L a.dir entry).map fun result =>
      ⟨⟨0, result, none, a.headers ++ [(a.dir.cur, a.dir.num)]⟩, a.dir, s⟩

/-- `seekdir`, for a successful `lseek`. -/
def seekdirDone (L : Layout) (d : DIR) (offset : Int) : DIR :=
  ⟨store d.buf L.off (bytes L.big L.offw (offset % 2 ^ (8 * L.offw)).toNat), 0, 0⟩

/-- `seekdir`. -/
def seekdir (K : Kernel L ls) (d : DIR) (offset : Int) (s : K.State) : DIR × K.State :=
  (if (K.lseek s offset).1 then seekdirDone L d offset else d, (K.lseek s offset).2)

/-- The pages that `opendir` maps are zero. -/
def opendir (L : Layout) : DIR := ⟨List.replicate L.size 0, 0, 0⟩

inductive Op where
  | read (entry : Dirent)
  | seek (offset : Int)

/-- What is seen of a call: for `seekdir` the new position, if there is one. -/
inductive Event where
  | read (reply : Reply)
  | seek (dest : Option Nat)

/-- A run of calls. -/
def run (K : Kernel L ls) : List Op → DIR → K.State → Option (List Event)
  | [], _, _ => some []
  | .read entry :: ops, d, s =>
    (readdirR K d entry s).bind fun c => (run K ops c.dir c.kernel).map (Event.read c.reply :: ·)
  | .seek offset :: ops, d, s =>
    (run K ops (seekdir K d offset s).1 (seekdir K d offset s).2).map
      (Event.seek (if (K.lseek s offset).1 then some (K.pos (K.lseek s offset).2) else none) :: ·)

/-! ## What is asked of it -/

/-- A record that the kernel may give. -/
structure Record (L : Layout) (r : List UInt8) : Prop where
  name : L.name + 1 ≤ r.length
  fits : r.length < L.size
  reclen : dReclen L r 0 = some r.length

/-- The entry has what is in the record. -/
structure Holds (L : Layout) (r : List UInt8) (e : Dirent) : Prop where
  ino : e.d_ino = number L.big (r.take L.ino)
  off : e.d_off = CInt.conv (8 * L.offw) (number L.big ((r.drop L.off).take L.offw))
  reclen : e.d_reclen = r.length
  type : e.d_type = r.getD (L.type.getD (r.length - 1)) 0
  name : e.d_name.take (r.length - L.name) = r.drop L.name

/-- The headers are read in the part of the buffer that `getdents` has filled. -/
def Inside (L : Layout) (reply : Reply) : Prop := ∀ h ∈ reply.headers, h.1 + L.name ≤ h.2

/-- A call where the record `p` is the next returns it, or finds the end, or reports an error of
`getdents`. Then the next record is another one, or still `p`. -/
inductive Returned (L : Layout) (ls : List (List UInt8)) (p : Nat) (reply : Reply) : Nat → Prop where
  | record {r : List UInt8} {e : Dirent} (hr : ls[p]? = some r) (hrc : reply.rc = 0)
      (hres : reply.result = some e) (he : Holds L r e) : Returned L ls p reply (p + 1)
  | finished (hp : ls.length ≤ p) (hrc : reply.rc = 0) (hres : reply.result = none) :
      Returned L ls p reply p
  | failed (hrc : reply.rc = 1) (hres : reply.result = none) (hasked : ∃ res ∈ reply.asked, res < 0) :
      Returned L ls p reply p

/-- The events of a run where the record `p` is the next. `seekdir` sets the next record. -/
inductive Follows (L : Layout) (ls : List (List UInt8)) : Nat → List Event → Prop where
  | nil (p : Nat) : Follows L ls p []
  | read {p q : Nat} {reply : Reply} {es : List Event} (h : Returned L ls p reply q)
      (hin : Inside L reply) (hes : Follows L ls q es) : Follows L ls p (.read reply :: es)
  | sought {p q : Nat} {es : List Event} (h : Follows L ls q es) :
      Follows L ls p (.seek (some q) :: es)
  | refused {p : Nat} {es : List Event} (h : Follows L ls p es) : Follows L ls p (.seek none :: es)

variable {d : DIR} {u r w : List UInt8} {p q n num : Nat} {entry : Dirent}

/-! ## One record -/

theorem load_record {a : Nat} (h : a + n ≤ r.length) (u w : List UInt8) :
    load (u ++ (r ++ w)) (u.length + a) n = some ((r.drop a).take n) := by
  have hlen : u.length + a + n ≤ (u ++ (r ++ w)).length := by
    rw [List.length_append, List.length_append]
    omega
  rw [load, if_pos hlen, ← List.drop_drop, List.drop_left, List.drop_append_of_le_length (by omega),
    List.take_append_of_le_length (by rw [List.length_drop]; omega)]

theorem dReclen_record (h : Record L r) (u w : List UInt8) :
    dReclen L (u ++ (r ++ w)) u.length = some r.length := by
  have hname := h.name
  have hle := L.reclen_le
  have hreclen := h.reclen
  have halone := load_record (r := r) (n := 2) (a := L.reclen) (by omega) [] []
  rw [List.nil_append, List.append_nil, List.length_nil] at halone
  rw [dReclen, halone] at hreclen
  rw [dReclen, load_record (by omega) u w]
  exact hreclen

theorem take_one_headD (h : n < r.length) : ((r.drop n).take 1).headD 0 = r.getD n 0 := by
  rw [List.drop_eq_getElem_cons h, List.take_succ_cons, List.headD_cons,
    List.getD_eq_getElem?_getD, List.getElem?_eq_getElem h, Option.getD_some]

theorem type_lt (h : Record L r) : L.type.getD (r.length - 1) < r.length := by
  have hname := h.name
  cases ht : L.type with
  | none => rw [Option.getD_none]; omega
  | some t =>
    have hlt := L.type_lt t ht
    rw [Option.getD_some]
    omega

/-- What the assignments store. -/
def entryOf (L : Layout) (r : List UInt8) (entry : Dirent) : Dirent :=
  ⟨number L.big (r.take L.ino), CInt.conv (8 * L.offw) (number L.big ((r.drop L.off).take L.offw)),
    r.length, r.getD (L.type.getD (r.length - 1)) 0,
    r.drop L.name ++ entry.d_name.drop (r.length - L.name)⟩

theorem holds_entryOf (L : Layout) (r : List UInt8) (entry : Dirent) :
    Holds L r (entryOf L r entry) := by
  refine ⟨rfl, rfl, rfl, rfl, ?_⟩
  have hlen : (r.drop L.name).length = r.length - L.name := List.length_drop
  unfold entryOf
  dsimp only
  rw [← hlen, List.take_left]

/-- A record that is too long for `d_name` is copied behind it. -/
theorem deliver_eq (h : Record L r) (u w : List UInt8) (num : Nat) (entry : Dirent) :
    deliver L ⟨u ++ (r ++ w), num, u.length⟩ entry =
      if r.length - L.name ≤ 256 then some (some (entryOf L r entry)) else none := by
  have hname := h.name
  have hino := L.ino_le
  have hoff := L.off_le
  have hle := L.reclen_le
  have htype := type_lt h
  have hload := load_record (r := r) (a := 0) (n := L.ino) (by omega) u w
  have htake : (r.drop L.name).take (r.length - L.name) = r.drop L.name :=
    List.take_of_length_le (by rw [List.length_drop])
  rw [Nat.add_zero, List.drop_zero] at hload
  unfold deliver entryOf
  rw [dReclen_record h, Option.bind_some, if_neg (by omega), hload, Option.bind_some,
    load_record (by omega), Option.bind_some, load_record (by omega), Option.bind_some,
    load_record (by omega), Option.bind_some, take_one_headD htype, htake]

/-! ## The buffer -/

/-- Where a run is: the next record is the one at the position of the kernel, or there are more in the
buffer behind the one that was returned last. -/
inductive Inv (L : Layout) (ls : List (List UInt8)) (d : DIR) (k : Nat) : Nat → Prop where
  | idle (hlen : d.buf.length = L.size) (hcur : d.num = 0 ∨ d.num ≤ d.cur) : Inv L ls d k k
  | busy {p : Nat} {u r w : List UInt8} {rest : List (List UInt8)} (hlen : d.buf.length = L.size)
      (hbuf : d.buf = u ++ (r ++ (rest.flatten ++ w))) (hcur : d.cur = u.length)
      (hnum : d.num = u.length + (r.length + rest.flatten.length)) (hr : Record L r)
      (hsize : d.num < L.size) (hrest : ls.drop p = rest ++ ls.drop k) (hp : p + rest.length = k) :
      Inv L ls d k p

theorem length_store {b v : List UInt8} {a : Nat} (h : a + v.length ≤ b.length) :
    (store b a v).length = b.length := by
  unfold store
  rw [List.length_append, List.length_append, List.length_take, List.length_drop]
  omega

theorem length_bytes (big : Bool) (n v : Nat) : (bytes big n v).length = n := by
  induction n generalizing v with
  | zero => rfl
  | succ n ih =>
    cases big with
    | false => exact congrArg (· + 1) (ih _)
    | true => exact List.length_append.trans (congrArg (· + 1) (ih _))

theorem advance_idle (h : d.num = 0 ∨ d.num ≤ d.cur) : advance L d = some ⟨true, d, []⟩ := if_pos h

theorem advance_busy (hr : Record L r) (h : u.length + r.length ≤ num) (hnum : num < 2 ^ 31) :
    advance L ⟨u ++ (r ++ w), num, u.length⟩ = some ⟨decide (num ≤ u.length + r.length),
      ⟨u ++ (r ++ w), num, u.length + r.length⟩, [(u.length, num)]⟩ := by
  have hname := hr.name
  have hmod : (u.length + r.length) % 2 ^ 32 = u.length + r.length := Nat.mod_eq_of_lt (by omega)
  unfold advance
  rw [if_neg (by dsimp only; omega)]
  dsimp only
  rw [dReclen_record hr, Option.map_some, hmod]

/-- One more header that is read inside what `getdents` gave. -/
theorem inside_concat {hs : List (Nat × Nat)} {cur num : Nat} (hin : ∀ h ∈ hs, h.1 + L.name ≤ h.2)
    (hle : cur + L.name ≤ num) : ∀ h ∈ hs ++ [(cur, num)], h.1 + L.name ≤ h.2 := by
  intro h hmem
  rcases List.mem_append.mp hmem with hmem | hmem
  · exact hin h hmem
  · rw [List.mem_singleton.mp hmem]
    exact hle

/-- A call that asks the kernel. -/
theorem readdirR_more (K : Kernel L ls) {s : K.State} {d' : DIR} {hs : List (Nat × Nat)}
    (ha : advance L d = some ⟨true, d', hs⟩) (hlen : d'.buf.length = L.size)
    (hcur : d'.num = 0 ∨ d'.num ≤ d'.cur) (hin : ∀ h ∈ hs, h.1 + L.name ≤ h.2)
    (hls : ∀ r ∈ ls, Record L r ∧ r.length ≤ L.name + 256) (entry : Dirent) :
    ∃ c q, readdirR K d entry s = some c ∧ Returned L ls (K.pos s) c.reply q ∧ Inside L c.reply ∧
      Inv L ls c.dir (K.pos c.kernel) q := by
  have hans := K.getdents_answer s
  unfold readdirR
  rw [ha, Option.bind_some, if_pos rfl]
  generalize K.getdents s = g at hans ⊢
  obtain ⟨res, b, s'⟩ := g
  dsimp only at hans ⊢
  generalize hk : K.pos s' = k at hans
  cases hans with
  | failed hres hb =>
    rw [if_pos hres.le, if_pos hres]
    refine ⟨_, _, rfl, .failed rfl rfl ⟨res, rfl, hres⟩, hin, ?_⟩
    rw [hk]
    exact .idle ((length_store (by omega)).trans hlen) hcur
  | finished hp =>
    rw [if_pos le_rfl, if_neg (lt_irrefl _)]
    refine ⟨_, _, rfl, .finished hp rfl rfl, hin, ?_⟩
    rw [hk]
    exact .idle ((length_store (by rw [List.length_nil]; omega)).trans hlen) hcur
  | @batch j _ hj hp hb hsize =>
    obtain ⟨r, hr⟩ : ∃ r, ls[K.pos s]? = some r := ⟨_, List.getElem?_eq_getElem (by omega)⟩
    obtain ⟨hrec, hfit⟩ := hls r (List.mem_of_getElem? hr)
    have hname := hrec.name
    have hdrop : ls.drop (K.pos s) = r :: ls.drop (K.pos s + 1) := by
      rw [List.drop_eq_getElem_cons (by omega), ← Option.some.inj (hr.symm.trans
        (List.getElem?_eq_getElem (by omega)))]
    obtain ⟨rest, hrest⟩ : ∃ rest, rest = (ls.drop (K.pos s + 1)).take (j - 1) := ⟨_, rfl⟩
    have htake : b = r ++ rest.flatten := by
      rw [hb, hdrop, hrest]
      obtain ⟨i, rfl⟩ : ∃ i, j = i + 1 := ⟨j - 1, by omega⟩
      rfl
    have hblen : b.length = r.length + rest.flatten.length := by rw [htake, List.length_append]
    have hsz := L.size_lt
    have hnum : ((b.length : Int).toNat % 2 ^ 32) = b.length := by
      rw [Int.toNat_natCast, Nat.mod_eq_of_lt (by omega)]
    have hbuf : store d'.buf 0 b = [] ++ (r ++ (rest.flatten ++ d'.buf.drop b.length)) := by
      rw [store, List.take_zero, Nat.zero_add, htake]
      simp only [List.nil_append, List.append_assoc]
    have hdel := deliver_eq hrec [] (rest.flatten ++ d'.buf.drop b.length) b.length entry
    rw [if_pos (by omega), ← hbuf, List.length_nil] at hdel
    rw [if_neg (by omega), hnum, hdel, Option.map_some]
    refine ⟨_, _, rfl, .record hr rfl rfl (holds_entryOf L r entry),
      inside_concat hin (by omega), ?_⟩
    rw [hk]
    refine .busy ((length_store (by omega)).trans hlen) hbuf rfl
      (by dsimp only; rw [List.length_nil]; omega) hrec hsize ?_ ?_
    · have hbehind : ls.drop (K.pos s + j) = (ls.drop (K.pos s + 1)).drop (j - 1) := by
        rw [List.drop_drop]
        congr 1
        omega
      rw [hrest, hbehind, List.take_append_drop]
    · rw [hrest, List.length_take, List.length_drop]
      omega

/-- **A call** from a state of a run. -/
theorem readdirR_spec (K : Kernel L ls) {s : K.State} (hinv : Inv L ls d (K.pos s) p)
    (hls : ∀ r ∈ ls, Record L r ∧ r.length ≤ L.name + 256) (entry : Dirent) :
    ∃ c q, readdirR K d entry s = some c ∧ Returned L ls p c.reply q ∧ Inside L c.reply ∧
      Inv L ls c.dir (K.pos c.kernel) q := by
  cases hinv with
  | idle hlen hcur =>
    exact readdirR_more K (advance_idle hcur) hlen hcur (fun h hmem => absurd hmem List.not_mem_nil)
      hls entry
  | @busy _ u r w rest hlen hbuf hcur hnum hr hsize hrest hp =>
    have hname := hr.name
    have hsz := L.size_lt
    obtain ⟨buf, num, cur⟩ := d
    dsimp only at hlen hbuf hcur hnum hsize
    subst hbuf hcur
    have hle : u.length + r.length ≤ num := by omega
    have hadv := advance_busy (w := rest.flatten ++ w) hr hle (hsize.trans hsz)
    have hin : ∀ h ∈ [(u.length, num)], h.1 + L.name ≤ h.2 :=
      inside_concat (fun h hmem => absurd hmem List.not_mem_nil) (by omega)
    cases rest with
    | nil =>
      rw [List.flatten_nil, List.length_nil] at hnum
      rw [decide_eq_true (by omega)] at hadv
      rw [List.length_nil, Nat.add_zero] at hp
      subst hp
      exact readdirR_more K hadv hlen (.inr (by dsimp only; omega)) hin hls entry
    | cons r' rest =>
      rw [List.flatten_cons, List.length_append] at hnum
      have hmem : r' ∈ ls.drop p := by
        rw [hrest]
        exact List.mem_cons_self
      obtain ⟨hrec, hfit⟩ := hls r' (List.mem_of_mem_drop hmem)
      have hname' := hrec.name
      have hget : ls[p]? = some r' := by
        have hzero := congrArg (·[0]?) hrest
        simpa using hzero
      have hbuf : u ++ (r ++ ((r' :: rest).flatten ++ w)) =
          (u ++ r) ++ (r' ++ (rest.flatten ++ w)) := by
        rw [List.flatten_cons]
        simp only [List.append_assoc]
      have hdel := deliver_eq hrec (u ++ r) (rest.flatten ++ w) num entry
      rw [if_pos (by omega), ← hbuf, List.length_append] at hdel
      unfold readdirR
      rw [hadv, Option.bind_some, if_neg (by simp; omega)]
      dsimp only
      rw [hdel, Option.map_some]
      refine ⟨_, _, rfl, .record hget rfl rfl (holds_entryOf L r' entry),
        inside_concat hin (by omega), ?_⟩
      refine .busy hlen hbuf List.length_append.symm
        (by dsimp only; rw [List.length_append]; omega) hrec hsize ?_ ?_
      · rw [← List.drop_drop, hrest]
        rfl
      · rw [List.length_cons] at hp
        dsimp only
        omega

theorem seekdir_inv (K : Kernel L ls) {s : K.State} (hlen : d.buf.length = L.size) (offset : Int)
    (h : (K.lseek s offset).1 = true) :
    Inv L ls (seekdir K d offset s).1 (K.pos (seekdir K d offset s).2)
      (K.pos (K.lseek s offset).2) := by
  have hoff := L.off_le
  have hle := L.reclen_le
  have hname := L.name_lt
  unfold seekdir
  rw [if_pos h]
  refine .idle ((length_store ?_).trans hlen) (.inl rfl)
  rw [length_bytes]
  omega

theorem Inv.length (h : Inv L ls d n p) : d.buf.length = L.size := by
  cases h with
  | idle hlen => exact hlen
  | busy hlen => exact hlen

/-- **A run** from such a state. -/
theorem run_spec (K : Kernel L ls) {s : K.State} (ops : List Op) (hinv : Inv L ls d (K.pos s) p)
    (hls : ∀ r ∈ ls, Record L r ∧ r.length ≤ L.name + 256) :
    ∃ es, run K ops d s = some es ∧ Follows L ls p es := by
  induction ops generalizing d s p with
  | nil => exact ⟨[], rfl, .nil p⟩
  | cons op ops ih =>
    cases op with
    | read entry =>
      obtain ⟨c, q, hc, hret, hin, hinv⟩ := readdirR_spec K hinv hls entry
      obtain ⟨es, hes, hfollows⟩ := ih hinv
      refine ⟨.read c.reply :: es, ?_, .read hret hin hfollows⟩
      rw [run, hc, Option.bind_some, hes]
      rfl
    | seek offset =>
      rw [run]
      cases hseek : (K.lseek s offset).1 with
      | true =>
        obtain ⟨es, hes, hfollows⟩ := ih (seekdir_inv K hinv.length offset hseek)
        refine ⟨_, ?_, .sought hfollows⟩
        rw [hes]
        rfl
      | false =>
        have hpos := K.lseek_failed s offset hseek
        have hsame : (seekdir K d offset s).1 = d := if_neg (by rw [hseek]; decide)
        obtain ⟨es, hes, hfollows⟩ := ih (d := d) (s := (seekdir K d offset s).2) (p := p) (by
          rw [show K.pos (seekdir K d offset s).2 = K.pos s from hpos]
          exact hinv)
        refine ⟨_, ?_, .refused hfollows⟩
        rw [hsame, hes]
        rfl

theorem inv_opendir (L : Layout) (ls : List (List UInt8)) (k : Nat) : Inv L ls (opendir L) k k :=
  .idle List.length_replicate (.inl rfl)

/-! ## A record that does not fit -/

/-- A kernel that gives one record at a time, and goes where it is told. -/
def single (L : Layout) (ls : List (List UInt8)) (h : ∀ r ∈ ls, Record L r) : Kernel L ls where
  State := Nat
  pos := id
  getdents p := (((ls.getD p []).length : Int), ls.getD p [], if p < ls.length then p + 1 else p)
  lseek _ offset := (true, offset.toNat)
  getdents_answer := by
    intro p
    dsimp only [id]
    by_cases hp : p < ls.length
    · rw [if_pos hp, List.getD_eq_getElem?_getD, List.getElem?_eq_getElem hp, Option.getD_some]
      refine .batch Nat.one_pos hp ?_ (h _ (List.getElem_mem hp)).fits
      rw [List.drop_eq_getElem_cons hp, List.take_succ_cons, List.take_zero, List.flatten_cons,
        List.flatten_nil, List.append_nil]
    · rw [if_neg hp, List.getD_eq_getElem?_getD, List.getElem?_eq_none (not_lt.mp hp)]
      exact .finished (not_lt.mp hp)
  lseek_failed := by
    intro s offset hfail
    cases hfail

theorem run_seek_read_none (K : Kernel L ls) {s : K.State} {offset : Int}
    (h : readdirR K (seekdir K d offset s).1 entry (seekdir K d offset s).2 = none) :
    run K [.seek offset, .read entry] d s = none := by
  rw [run, run, h]
  rfl

/-- The first call behind a `seekdir` to a record that is too long. -/
theorem run_single_none (h : ∀ r ∈ ls, Record L r) (hr : ls[p]? = some r)
    (hlong : L.name + 256 < r.length) (entry : Dirent) :
    run (single L ls h) [.seek p, .read entry] (opendir L) (0 : Nat) = none := by
  have hrec := h r (List.mem_of_getElem? hr)
  have hname := hrec.name
  have hfits := hrec.fits
  have hsz := L.size_lt
  have hget : ls.getD p [] = r := by rw [List.getD_eq_getElem?_getD, hr, Option.getD_some]
  have hnum : ((r.length : Int).toNat % 2 ^ 32) = r.length := by
    rw [Int.toNat_natCast, Nat.mod_eq_of_lt (by omega)]
  have hcall : readdirR (single L ls h) (seekdirDone L (opendir L) p) entry (p : Nat) = none := by
    have hasked : (single L ls h).getdents (p : Nat) =
        (((ls.getD p []).length : Int), ls.getD p [], if p < ls.length then p + 1 else p) := rfl
    have hbuf : store (seekdirDone L (opendir L) p).buf 0 r =
        [] ++ (r ++ (seekdirDone L (opendir L) p).buf.drop (0 + r.length)) := by
      rw [store, List.take_zero, List.append_assoc]
    have hdel := deliver_eq hrec [] ((seekdirDone L (opendir L) p).buf.drop (0 + r.length)) r.length
      entry
    rw [if_neg (by omega), ← hbuf, List.length_nil] at hdel
    unfold readdirR
    rw [advance_idle (.inl rfl), Option.bind_some, if_pos rfl, hasked, hget]
    dsimp only
    rw [if_neg (by omega), hnum, hdel]
    rfl
  exact run_seek_read_none (single L ls h) hcall

/-- **Every run delivers the records in order exactly if** the names of the records fit the entry. -/
theorem readdir_right_iff (hls : ∀ r ∈ ls, Record L r) :
    (∀ (K : Kernel L ls) (s : K.State) (ops : List Op), ∃ es, run K ops (opendir L) s = some es ∧
      Follows L ls (K.pos s) es) ↔ ∀ r ∈ ls, r.length ≤ L.name + 256 := by
  constructor
  · intro h r hmem
    by_contra hlong
    obtain ⟨p, hr⟩ := List.mem_iff_getElem?.mp hmem
    obtain ⟨es, hes, -⟩ := h (single L ls hls) (0 : Nat) [.seek p, .read ⟨0, 0, 0, 0, []⟩]
    rw [run_single_none hls hr (by omega)] at hes
    cases hes
  · intro hfit K s ops
    exact run_spec K ops (inv_opendir L ls (K.pos s)) fun r hr => ⟨hls r hr, hfit r hr⟩

/-- The record of a name of one byte. -/
def dot : List UInt8 := List.replicate 16 0 ++ [24, 0, 46, 0, 0, 0, 0, 4]

/-- The record of a name of 255 bytes. -/
def longest : List UInt8 :=
  List.replicate 16 0 ++ [24, 1] ++ (List.replicate 255 97 ++ [0, 0, 0, 0, 0, 0, 8])

theorem record_dot : ∀ r ∈ [dot], Record x86_64 r := by
  intro r hr
  rw [List.mem_singleton.mp hr]
  exact ⟨by decide, by decide, by decide⟩

/-- A directory with one entry. -/
theorem readdir_right_iff_dot : (∀ (K : Kernel x86_64 [dot]) (s : K.State) (ops : List Op), ∃ es,
      run K ops (opendir x86_64) s = some es ∧ Follows x86_64 [dot] (K.pos s) es) ↔
    ∀ r ∈ [dot], r.length ≤ x86_64.name + 256 :=
  readdir_right_iff record_dot

/-- 262 bytes are copied to `d_name`. -/
theorem readdir_overflows : ¬∀ (L : Layout) (ls : List (List UInt8)), (∀ r ∈ ls, Record L r) →
    ∀ (K : Kernel L ls) (s : K.State) (ops : List Op), ∃ es, run K ops (opendir L) s = some es ∧
      Follows L ls (K.pos s) es := by
  intro h
  have hrec : ∀ r ∈ [longest], Record x86_64 r := by
    intro r hr
    rw [List.mem_singleton.mp hr]
    exact ⟨by decide +kernel, by decide +kernel, by decide +kernel⟩
  have hlong : x86_64.name + 256 < longest.length := by decide +kernel
  obtain ⟨es, hes, -⟩ := h x86_64 _ hrec (single x86_64 _ hrec) (0 : Nat)
    [.seek (0 : Nat), .read ⟨0, 0, 0, 0, []⟩]
  rw [run_single_none hrec rfl hlong] at hes
  cases hes

end Dietlibc.Dirs
