import Dietlibc.Base.TwoWay

/-!
# `_dl_get_handle` and `_dl_free_handle`

The handles in use are linked both ways in the order in which they were handed out; those not in use
are linked by `next` alone. The addresses that `mmap` returns are parameters, and a null pointer that
is followed is a fault, `none`.
-/

namespace Dietlibc.Loader

open Function TwoWay

/-- `struct _dl_handle` -/
structure Handle where
  memBase : Nat
  lName : Nat
  dynamic : Nat
  next : Nat
  prev : Nat
  flags : Nat
  name : Nat
  memSize : Nat
  lnkCount : Nat
  pltgot : Nat
  hashTab : Nat
  dynStrTab : Nat
  dynSymTab : Nat
  pltRel : Nat
  gnuHashTab : Nat
  init : Nat
  fini : Nat
  deriving DecidableEq

/-- What `memset(dh,0,sizeof(struct _dl_handle))` leaves. -/
def Handle.zero : Handle := ⟨0, 0, 0, 0, 0, 0, 0, 0, 0, 0, 0, 0, 0, 0, 0, 0, 0⟩

/-- `RTLD_NOSONAME` -/
def rtldNosoname : Nat := 0x20000000

/-- `_dl_root_handle`, `_dl_top_handle`, `_dl_free_list`, the handles, and the names passed to
`free`. -/
structure Handles where
  root : Nat
  top : Nat
  freeList : Nat
  mem : Nat → Handle
  freed : List Nat

namespace Handles

def next (s : Handles) (a : Nat) : Nat := (s.mem a).next

def prev (s : Handles) (a : Nat) : Nat := (s.mem a).prev

def setNext (s : Handles) (a v : Nat) : Handles :=
  { s with mem := update s.mem a { s.mem a with next := v } }

def setPrev (s : Handles) (a v : Nat) : Handles :=
  { s with mem := update s.mem a { s.mem a with prev := v } }

/-- `memset` of one handle. -/
def zero (s : Handles) (a : Nat) : Handles := { s with mem := update s.mem a .zero }

end Handles

/-- The root and the top move on from `dh`. -/
def repoint (dh : Nat) (s : Handles) : Handles :=
  let s := if s.root = dh then { s with root := s.next dh } else s
  if s.top = dh then { s with top := s.prev dh } else s

/-- The neighbours of `dh` are linked to each other. -/
def unlinkNext (dh : Nat) (s : Handles) : Handles :=
  if s.next dh ≠ 0 then s.setPrev (s.next dh) (s.prev dh) else s

def unlinkPrev (dh : Nat) (s : Handles) : Handles :=
  if s.prev dh ≠ 0 then s.setNext (s.prev dh) (s.next dh) else s

/-- `dh` is zeroed and put in front of the free list. -/
def release (dh : Nat) (s : Handles) : Handles :=
  let h := s.mem dh
  let s := if h.flags &&& rtldNosoname ≠ 0 ∧ h.name ≠ 0 then
    { s with freed := s.freed ++ [h.name] } else s
  let s := (s.zero dh).setNext dh s.freeList
  { s with freeList := dh }

/-- `_dl_free_handle` -/
def dlFreeHandle (dh : Nat) (s : Handles) : Option Handles :=
  if dh = 0 then none else some (release dh (unlinkPrev dh (unlinkNext dh (repoint dh s))))

/-- `for (i=m;i;) _dl_free_handle(tmp+(--i))`, with handles of `sz` bytes. -/
def freePage (sz page : Nat) : Nat → Handles → Option Handles
  | 0, s => some s
  | i + 1, s => (dlFreeHandle (page + i * sz) s).bind (freePage sz page i)

/-- A page from `mmap`, with `m` handles that are zero. -/
def mapPage (sz page m : Nat) (s : Handles) : Handles :=
  { s with mem := fun a => if ∃ i < m, a = page + i * sz then .zero else s.mem a }

/-- The first handle is taken off the free list. -/
def pop (s : Handles) : Handles :=
  { s with freeList := s.next s.freeList }.setNext s.freeList 0

/-- `tmp` is hung behind the last handle in use. -/
def hang (tmp : Nat) (s : Handles) : Option Handles :=
  if s.root ≠ 0 then
    if s.top = 0 then none else some { (s.setNext s.top tmp).setPrev tmp s.top with top := tmp }
  else some { s with root := tmp, top := tmp }

/-- `_dl_get_handle`, with pages of `ps` bytes and the page that `mmap` would return. -/
def dlGetHandle (ps sz page : Nat) (s : Handles) : Option (Nat × Handles) :=
  (if s.freeList = 0 then freePage sz page (ps / sz) (mapPage sz page (ps / sz) s)
    else some s).bind fun s =>
      if s.freeList = 0 then none else (hang s.freeList (pop s)).map fun s' => (s.freeList, s')

/-! ## Sequences of calls -/

/-- A call, or the owner of a handle writes its fields other than the links. -/
inductive HandleOp where
  | get (page : Nat)
  | free (dh : Nat)
  | fill (dh : Nat) (h : Handle)

/-- The handles, those in use in the order in which they were handed out, and the pages so far. -/
structure HandleRun where
  s : Handles
  live : List Nat
  pages : List Nat

/-- One call: `none` is a fault. -/
def HandleRun.step (ps sz : Nat) (r : HandleRun) : HandleOp → Option HandleRun
  | .get page => (dlGetHandle ps sz page r.s).map fun (h, s) =>
      ⟨s, r.live ++ [h], if r.s.freeList = 0 then page :: r.pages else r.pages⟩
  | .free dh => (dlFreeHandle dh r.s).map fun s => ⟨s, r.live.erase dh, r.pages⟩
  | .fill dh h => some { r with s :=
      { r.s with mem := update r.s.mem dh { h with next := r.s.next dh, prev := r.s.prev dh } } }

/-- Only handles in use are freed and written, and a page is mapped behind no other one. -/
def HandleRun.Allowed (ps : Nat) (r : HandleRun) : HandleOp → Prop
  | .get page => r.s.freeList = 0 → page ≠ 0 ∧ ∀ q ∈ r.pages, page + ps ≤ q ∨ q + ps ≤ page
  | .free dh | .fill dh _ => dh ∈ r.live

/-- The state at the start. -/
def HandleRun.start (mem : Nat → Handle) : HandleRun := ⟨⟨0, 0, 0, mem, []⟩, [], []⟩

/-- What a sequence of calls can lead to. -/
inductive Reached (ps sz : Nat) : HandleRun → Prop where
  | start (mem : Nat → Handle) : Reached ps sz (.start mem)
  | step {r r' : HandleRun} {op : HandleOp} (h : Reached ps sz r) (hop : r.Allowed ps op)
      (hstep : r.step ps sz op = some r') : Reached ps sz r'

/-! ## The fields behind a write -/

variable {s s' : Handles} {live f l l₁ l₂ : List Nat} {a b dh v i m ps sz page : Nat} {h : Handle}

namespace Handles

@[simp] theorem next_setNext : (s.setNext a v).next = update s.next a v := by
  funext b
  by_cases hb : b = a
  · subst hb
    simp [next, setNext]
  · simp [next, setNext, hb]

@[simp] theorem prev_setNext : (s.setNext a v).prev = s.prev := by
  funext b
  by_cases hb : b = a
  · subst hb
    simp [prev, setNext]
  · simp [prev, setNext, hb]

@[simp] theorem prev_setPrev : (s.setPrev a v).prev = update s.prev a v := by
  funext b
  by_cases hb : b = a
  · subst hb
    simp [prev, setPrev]
  · simp [prev, setPrev, hb]

@[simp] theorem next_setPrev : (s.setPrev a v).next = s.next := by
  funext b
  by_cases hb : b = a
  · subst hb
    simp [next, setPrev]
  · simp [next, setPrev, hb]

theorem mem_setNext (hb : b ≠ a) : (s.setNext a v).mem b = s.mem b := update_of_ne hb _ _

theorem mem_setPrev (hb : b ≠ a) : (s.setPrev a v).mem b = s.mem b := update_of_ne hb _ _

end Handles

/-- The lists: `live` are the handles in use, and `f` those that are not. -/
structure Linked (s : Handles) (live f : List Nat) : Prop where
  chain : Chain s.next s.prev 0 live 0
  root : s.root = live.headD 0
  top : s.top = live.getLastD 0
  free : Links s.next 0 s.freeList f
  zeroed : ∀ a ∈ f, { s.mem a with next := 0 } = Handle.zero
  nodup : (live ++ f).Nodup
  nonnull : 0 ∉ live

/-- The lists are in the handles that they list. -/
theorem Linked.frame (h : Linked s live f) (hmem : ∀ a ∈ live ++ f, s'.mem a = s.mem a)
    (hroot : s'.root = s.root) (htop : s'.top = s.top) (hfree : s'.freeList = s.freeList) :
    Linked s' live f where
  chain := h.chain.frame
    (fun a ha => congrArg Handle.next (hmem a (List.mem_append_left f ha)))
    fun a ha => congrArg Handle.prev (hmem a (List.mem_append_left f ha))
  root := hroot.trans h.root
  top := htop.trans h.top
  free := by
    rw [hfree]
    exact h.free.frame fun a ha => congrArg Handle.next (hmem a (List.mem_append_right live ha))
  zeroed := fun a ha => by rw [hmem a (List.mem_append_right live ha), h.zeroed a ha]
  nodup := h.nodup
  nonnull := h.nonnull

/-! ## `_dl_free_handle` -/

theorem mem_repoint (dh : Nat) (s : Handles) : (repoint dh s).mem = s.mem := by
  unfold repoint
  dsimp only
  split <;> split <;> rfl

theorem freeList_repoint (dh : Nat) (s : Handles) : (repoint dh s).freeList = s.freeList := by
  unfold repoint
  dsimp only
  split <;> split <;> rfl

theorem root_repoint (dh : Nat) (s : Handles) :
    (repoint dh s).root = if s.root = dh then s.next dh else s.root := by
  unfold repoint
  dsimp only
  split <;> split <;> rfl

theorem top_repoint (dh : Nat) (s : Handles) :
    (repoint dh s).top = if s.top = dh then s.prev dh else s.top := by
  unfold repoint Handles.prev
  dsimp only
  split <;> split <;> rfl

theorem mem_release (hb : b ≠ dh) : (release dh s).mem b = s.mem b := by
  unfold release Handles.zero Handles.setNext
  dsimp only
  split <;> simp [hb]

theorem mem_release_self (dh : Nat) (s : Handles) :
    (release dh s).mem dh = { Handle.zero with next := s.freeList } := by
  unfold release Handles.zero Handles.setNext
  dsimp only
  split <;> simp

theorem root_release (dh : Nat) (s : Handles) : (release dh s).root = s.root := by
  unfold release
  dsimp only
  split <;> rfl

theorem top_release (dh : Nat) (s : Handles) : (release dh s).top = s.top := by
  unfold release
  dsimp only
  split <;> rfl

/-- A handle outside the lists is put on the free list. -/
theorem Linked.released (h : Linked s live f) (hdh : dh ∉ live ++ f) (h0 : dh ≠ 0) :
    Linked (release dh s) live (dh :: f) := by
  obtain ⟨hlive, hf⟩ := not_or.mp (mt List.mem_append.mpr hdh)
  have hmem : ∀ a ∈ live ++ f, (release dh s).mem a = s.mem a := fun a ha =>
    mem_release (ne_of_mem_of_not_mem ha hdh)
  have hnext : ∀ a ∈ live ++ f, (release dh s).next a = s.next a := fun a ha =>
    congrArg Handle.next (hmem a ha)
  have hself := mem_release_self dh s
  exact {
    chain := h.chain.frame (fun a ha => hnext a (List.mem_append_left f ha))
      fun a ha => congrArg Handle.prev (hmem a (List.mem_append_left f ha))
    root := (root_release dh s).trans h.root
    top := (top_release dh s).trans h.top
    free := h.free.push h0 (congrArg Handle.next hself)
      fun a ha => hnext a (List.mem_append_right live ha)
    zeroed := by
      refine List.forall_mem_cons.mpr ⟨by rw [hself]; rfl, fun a ha => ?_⟩
      rw [hmem a (List.mem_append_right live ha), h.zeroed a ha]
    nodup := List.nodup_middle.mpr (List.nodup_cons.mpr ⟨hdh, h.nodup⟩)
    nonnull := h.nonnull }

/-- The list behind `dh` is hung to the handle in front of it. -/
theorem unlinkNext_spec (h : Chain s.next s.prev dh l 0) (hn : s.next dh = l.headD 0)
    (hnd : l.Nodup) (h0 : 0 ∉ l) :
    Chain (unlinkNext dh s).next (unlinkNext dh s).prev (s.prev dh) l 0 ∧
      (unlinkNext dh s).next = s.next ∧ ∀ a ∉ l, (unlinkNext dh s).mem a = s.mem a := by
  unfold unlinkNext
  cases l with
  | nil =>
    rw [if_neg (show ¬s.next dh ≠ 0 from not_not.mpr hn)]
    exact ⟨trivial, rfl, fun _ _ => rfl⟩
  | cons y l =>
    rw [List.headD_cons] at hn
    rw [hn, if_pos (ne_of_mem_of_not_mem List.mem_cons_self h0), Handles.next_setPrev,
      Handles.prev_setPrev]
    refine ⟨h.setFront (List.nodup_cons.mp hnd).1 _, rfl, fun a ha => ?_⟩
    exact Handles.mem_setPrev fun heq => ha (heq ▸ List.mem_cons_self)

/-- The list in front of `dh` is hung to the handle behind it. -/
theorem unlinkPrev_spec (h : Chain s.next s.prev 0 l dh) (hp : s.prev dh = l.getLastD 0)
    (hnd : l.Nodup) (h0 : 0 ∉ l) :
    Chain (unlinkPrev dh s).next (unlinkPrev dh s).prev 0 l (s.next dh) ∧
      (unlinkPrev dh s).prev = s.prev ∧ ∀ a ∉ l, (unlinkPrev dh s).mem a = s.mem a := by
  unfold unlinkPrev
  rcases List.eq_nil_or_concat' l with rfl | ⟨l, x, rfl⟩
  · rw [if_neg (show ¬s.prev dh ≠ 0 from not_not.mpr hp)]
    exact ⟨trivial, rfl, fun _ _ => rfl⟩
  · have hx : x ∉ l := fun hm => (List.nodup_append.mp hnd).2.2 x hm x List.mem_cons_self rfl
    have hmem : x ∈ l ++ [x] := List.mem_append_right l List.mem_cons_self
    rw [List.getLastD_concat] at hp
    rw [hp, if_pos (ne_of_mem_of_not_mem hmem h0), Handles.next_setNext, Handles.prev_setNext]
    refine ⟨h.setEnd hx _, rfl, fun a ha => ?_⟩
    exact Handles.mem_setNext fun heq => ha (heq ▸ hmem)

theorem root_unlink (dh : Nat) (s : Handles) : (unlinkPrev dh (unlinkNext dh s)).root = s.root := by
  unfold unlinkPrev unlinkNext
  split <;> split <;> rfl

theorem top_unlink (dh : Nat) (s : Handles) : (unlinkPrev dh (unlinkNext dh s)).top = s.top := by
  unfold unlinkPrev unlinkNext
  split <;> split <;> rfl

theorem freeList_unlink (dh : Nat) (s : Handles) :
    (unlinkPrev dh (unlinkNext dh s)).freeList = s.freeList := by
  unfold unlinkPrev unlinkNext
  split <;> split <;> rfl

theorem Linked.nodup_out (h : Linked s (l₁ ++ dh :: l₂) f) :
    (l₁ ++ l₂ ++ f).Nodup ∧ dh ∉ l₁ ++ l₂ ++ f := by
  have hall := h.nodup
  rw [List.append_assoc, List.cons_append, List.nodup_middle, ← List.append_assoc] at hall
  exact (List.nodup_cons.mp hall).symm

/-- A handle in use is taken out of its list. -/
theorem Linked.unlink (h : Linked s (l₁ ++ dh :: l₂) f) :
    Linked (unlinkPrev dh (unlinkNext dh (repoint dh s))) (l₁ ++ l₂) f := by
  obtain ⟨hinit, hprev, hnext, htail⟩ := chain_append.mp h.chain
  rw [List.headD_cons] at hinit
  obtain ⟨hlive, -, hsep⟩ := List.nodup_append.mp h.nodup
  obtain ⟨hdh, hlive'⟩ := List.nodup_cons.mp (List.nodup_middle.mp hlive)
  obtain ⟨hl₁, hl₂⟩ := not_or.mp (mt List.mem_append.mpr hdh)
  obtain ⟨hnd₁, hnd₂, hdisj⟩ := List.nodup_append.mp hlive'
  have h0 : 0 ∉ l₁ ++ l₂ := fun hm => h.nonnull (by
    rcases List.mem_append.mp hm with hm | hm
    · exact List.mem_append_left _ hm
    · exact List.mem_append_right _ (List.mem_cons_of_mem _ hm))
  obtain ⟨h01, h02⟩ := not_or.mp (mt List.mem_append.mpr h0)
  have hmem : ∀ a, (repoint dh s).mem a = s.mem a := fun a => congrFun (mem_repoint dh s) a
  have hn : (repoint dh s).next = s.next := funext fun a => congrArg Handle.next (hmem a)
  have hp : (repoint dh s).prev = s.prev := funext fun a => congrArg Handle.prev (hmem a)
  obtain ⟨htail₁, hn₁, hout₁⟩ := unlinkNext_spec (s := repoint dh s) (hn ▸ hp ▸ htail)
    (hn ▸ hnext) hnd₂ h02
  have hprev₁ : (unlinkNext dh (repoint dh s)).prev dh = l₁.getLastD 0 :=
    (congrArg Handle.prev ((hout₁ dh hl₂).trans (hmem dh))).trans hprev
  obtain ⟨hinit₂, hp₂, hout₂⟩ := unlinkPrev_spec (s := unlinkNext dh (repoint dh s))
    (hinit.frame (fun _ _ => by rw [hn₁, hn]) fun a ha =>
      congrArg Handle.prev ((hout₁ a fun ha' => hdisj a ha a ha' rfl).trans (hmem a)))
    hprev₁ hnd₁ h01
  have hout : ∀ a ∉ l₁ ++ l₂, (unlinkPrev dh (unlinkNext dh (repoint dh s))).mem a = s.mem a := by
    intro a ha
    obtain ⟨ha₁, ha₂⟩ := not_or.mp (mt List.mem_append.mpr ha)
    exact (hout₂ a ha₁).trans ((hout₁ a ha₂).trans (hmem a))
  have hfree : ∀ a ∈ f, (unlinkPrev dh (unlinkNext dh (repoint dh s))).mem a = s.mem a := by
    refine fun a ha => hout a fun hm => ?_
    rcases List.mem_append.mp hm with hm | hm
    · exact hsep a (List.mem_append_left _ hm) a ha rfl
    · exact hsep a (List.mem_append_right _ (List.mem_cons_of_mem _ hm)) a ha rfl
  refine ⟨chain_append.mpr ⟨?_, ?_⟩, ?_, ?_, ?_, ?_, ?_, h0⟩
  · rwa [hn₁, hn, hnext] at hinit₂
  · rw [← hprev, ← hp]
    refine htail₁.frame (fun a ha => ?_) fun a ha => by rw [hp₂]
    exact congrArg Handle.next (hout₂ a fun ha' => hdisj a ha' a ha rfl)
  · rw [root_unlink, root_repoint, h.root, hnext]
    cases l₁ with
    | nil => exact if_pos rfl
    | cons x l₁ => exact if_neg fun heq => hl₁ (List.mem_cons.mpr (.inl heq.symm))
  · rw [top_unlink, top_repoint, h.top, hprev]
    rcases List.eq_nil_or_concat' l₂ with rfl | ⟨l₂, y, rfl⟩
    · rw [List.getLastD_concat, if_pos rfl, List.append_nil]
    · have hne : y ≠ dh := ne_of_mem_of_not_mem (List.mem_append_right l₂ List.mem_cons_self) hl₂
      rw [← List.cons_append, ← List.append_assoc, ← List.append_assoc, List.getLastD_concat,
        List.getLastD_concat, if_neg hne]
  · rw [freeList_unlink, freeList_repoint]
    exact h.free.frame fun a ha => congrArg Handle.next (hfree a ha)
  · exact fun a ha => by rw [hfree a ha, h.zeroed a ha]
  · exact h.nodup_out.1

/-- A handle in use goes to the free list. -/
theorem Linked.freeHandle (h : Linked s (l₁ ++ dh :: l₂) f) :
    ∃ s', dlFreeHandle dh s = some s' ∧ Linked s' (l₁ ++ l₂) (dh :: f) := by
  have h0 : dh ≠ 0 := ne_of_mem_of_not_mem (List.mem_append_right l₁ List.mem_cons_self) h.nonnull
  exact ⟨_, if_neg h0, h.unlink.released h.nodup_out.2 h0⟩

/-- A new handle goes to the free list, and nothing else changes. -/
theorem Linked.freeNew (h : Linked s live f) (hdh : dh ∉ live ++ f) (h0 : dh ≠ 0)
    (hzero : s.mem dh = .zero) :
    ∃ s', dlFreeHandle dh s = some s' ∧ Linked s' live (dh :: f) ∧ ∀ a ≠ dh, s'.mem a = s.mem a := by
  obtain ⟨hlive, -⟩ := not_or.mp (mt List.mem_append.mpr hdh)
  have hroot : s.root ≠ dh := by
    rw [h.root]
    cases live with
    | nil => exact h0.symm
    | cons x live => exact fun heq => hlive (heq ▸ List.mem_cons_self)
  have htop : s.top ≠ dh := by
    rw [h.top]
    rcases List.eq_nil_or_concat' live with rfl | ⟨live, x, rfl⟩
    · exact h0.symm
    · rw [List.getLastD_concat]
      exact fun heq => hlive (heq ▸ List.mem_append_right _ List.mem_cons_self)
  have hre : repoint dh s = s := by
    unfold repoint
    rw [if_neg hroot]
    exact if_neg htop
  have hunlink : unlinkPrev dh (unlinkNext dh s) = s := by
    have hnext : s.next dh = 0 := congrArg Handle.next hzero
    have hprev : s.prev dh = 0 := congrArg Handle.prev hzero
    rw [unlinkNext, if_neg (not_not.mpr hnext), unlinkPrev, if_neg (not_not.mpr hprev)]
  refine ⟨release dh s, ?_, h.released hdh h0, fun a ha => mem_release ha⟩
  rw [dlFreeHandle, if_neg h0, hre, hunlink]

/-! ## `_dl_get_handle` -/

/-- The handles of a page go to the free list. -/
theorem Linked.freedPage (h : Linked s live f) (hsz : 0 < sz)
    (hout : ∀ i < m, page + i * sz ∉ live ++ f) (h0 : page ≠ 0)
    (hzero : ∀ i < m, s.mem (page + i * sz) = .zero) :
    ∃ s', freePage sz page m s = some s' ∧
      Linked s' live ((List.range m).map (page + · * sz) ++ f) := by
  induction m generalizing s f with
  | zero => exact ⟨s, rfl, h⟩
  | succ m ih =>
    obtain ⟨s₁, hs₁, hlinked, hmem⟩ := h.freeNew (hout m (Nat.lt_succ_self m))
      (Nat.add_pos_left (Nat.pos_of_ne_zero h0) _).ne' (hzero m (Nat.lt_succ_self m))
    have hne (i : Nat) (hi : i < m) : page + i * sz ≠ page + m * sz := fun heq =>
      hi.ne (Nat.eq_of_mul_eq_mul_right hsz (Nat.add_left_cancel heq))
    obtain ⟨s', hs', hlinked'⟩ := ih hlinked
      (fun i hi hm => by
        rcases List.mem_append.mp hm with hm | hm
        · exact hout i (Nat.lt_succ_of_lt hi) (List.mem_append_left f hm)
        · rcases List.mem_cons.mp hm with hm | hm
          · exact hne i hi hm
          · exact hout i (Nat.lt_succ_of_lt hi) (List.mem_append_right live hm))
      fun i hi => (hmem _ (hne i hi)).trans (hzero i (Nat.lt_succ_of_lt hi))
    refine ⟨s', by rw [freePage, hs₁]; exact hs', ?_⟩
    rw [List.range_succ, List.map_append, List.append_assoc]
    exact hlinked'

theorem Linked.popped {t : Nat} (h : Linked s live (t :: f)) :
    Linked (pop s) live f ∧ s.freeList = t ∧ t ∉ live ++ f ∧ t ≠ 0 ∧ (pop s).mem t = .zero := by
  obtain ⟨htf, hfree⟩ := h.free.uncons
  obtain ⟨hzero, hzeroed⟩ := List.forall_mem_cons.mp h.zeroed
  obtain ⟨ht, hnodup⟩ := List.nodup_cons.mp (List.nodup_middle.mp h.nodup)
  have hmem : ∀ a ∈ live ++ f, (pop s).mem a = s.mem a := fun a ha =>
    Handles.mem_setNext (htf ▸ ne_of_mem_of_not_mem ha ht)
  have hf : ∀ a ∈ f, (pop s).mem a = s.mem a := fun a ha => hmem a (List.mem_append_right live ha)
  have hl : ∀ a ∈ live, (pop s).mem a = s.mem a := fun a ha => hmem a (List.mem_append_left f ha)
  refine ⟨?_, htf, ht, h.free.ne_nil t List.mem_cons_self, ?_⟩
  · exact {
      chain := h.chain.frame (fun a ha => congrArg Handle.next (hl a ha))
        fun a ha => congrArg Handle.prev (hl a ha)
      root := h.root
      top := h.top
      free := by
        rw [show (pop s).freeList = s.next t by rw [← htf]; rfl]
        exact hfree.frame fun a ha => congrArg Handle.next (hf a ha)
      zeroed := fun a ha => by rw [hf a ha, hzeroed a ha]
      nodup := hnodup
      nonnull := h.nonnull }
  · rw [← hzero, ← htf]
    exact update_self _ _ _

/-- A handle that is zero is hung behind the last one in use. -/
theorem Linked.hung {t : Nat} (h : Linked s live f) (ht : t ∉ live ++ f) (h0 : t ≠ 0)
    (hzero : s.mem t = .zero) :
    ∃ s', hang t s = some s' ∧ Linked s' (live ++ [t]) f ∧
      { s'.mem t with next := 0, prev := 0 } = Handle.zero := by
  obtain ⟨htl, htf⟩ := not_or.mp (mt List.mem_append.mpr ht)
  have hnodup : (live ++ [t] ++ f).Nodup := by
    rw [List.append_assoc, List.singleton_append, List.nodup_middle]
    exact List.nodup_cons.mpr ⟨ht, h.nodup⟩
  have h0' : 0 ∉ live ++ [t] := by
    rw [List.mem_append, List.mem_singleton]
    exact not_or.mpr ⟨h.nonnull, h0.symm⟩
  have hnext : s.next t = 0 := congrArg Handle.next hzero
  have hprev : s.prev t = 0 := congrArg Handle.prev hzero
  unfold hang
  rcases List.eq_nil_or_concat' live with rfl | ⟨l, x, rfl⟩
  · have hroot : s.root = 0 := h.root
    rw [if_neg (not_not.mpr hroot)]
    refine ⟨_, rfl, ?_, by rw [hzero]; rfl⟩
    exact {
      chain := ⟨hprev, hnext, trivial⟩
      root := rfl
      top := rfl
      free := h.free
      zeroed := h.zeroed
      nodup := hnodup
      nonnull := h0' }
  · obtain ⟨hlive, -, hsep⟩ := List.nodup_append.mp h.nodup
    have hxl : x ∉ l := fun hm => (List.nodup_append.mp hlive).2.2 x hm x List.mem_cons_self rfl
    have htop : s.top = x := by rw [h.top, List.getLastD_concat]
    have hx : x ≠ 0 := ne_of_mem_of_not_mem (List.mem_append_right l List.mem_cons_self) h.nonnull
    have hxt : t ≠ x := fun heq => htl (heq ▸ List.mem_append_right l List.mem_cons_self)
    have hroot : s.root ≠ 0 := by
      rw [h.root]
      cases l with
      | nil => exact hx
      | cons y l => exact ne_of_mem_of_not_mem List.mem_cons_self h.nonnull
    rw [if_pos hroot, htop, if_neg hx]
    have hf : ∀ a ∈ f, ((s.setNext x t).setPrev t x).mem a = s.mem a := fun a ha =>
      (Handles.mem_setPrev (ne_of_mem_of_not_mem ha htf)).trans
        (Handles.mem_setNext (hsep x (List.mem_append_right l List.mem_cons_self) a ha).symm)
    refine ⟨_, rfl, ?_, ?_⟩
    · exact {
        chain := by
          change Chain ((s.setNext x t).setPrev t x).next ((s.setNext x t).setPrev t x).prev 0 _ 0
          rw [Handles.next_setPrev, Handles.next_setNext, Handles.prev_setPrev, Handles.prev_setNext,
            chain_append, List.getLastD_concat]
          exact ⟨(h.chain.setEnd hxl t).prev_out htl x, update_self _ _ _,
            (update_of_ne hxt _ _).trans hnext, trivial⟩
        root := by
          rw [show ((s.setNext x t).setPrev t x).root = s.root from rfl, h.root]
          cases l <;> rfl
        top := by rw [List.getLastD_concat]
        free := h.free.frame fun a ha => congrArg Handle.next (hf a ha)
        zeroed := fun a ha => by rw [hf a ha, h.zeroed a ha]
        nodup := hnodup
        nonnull := h0' }
    · change { ((s.setNext x t).setPrev t x).mem t with next := 0, prev := 0 } = Handle.zero
      have hself : ((s.setNext x t).setPrev t x).mem t = { (s.setNext x t).mem t with prev := x } :=
        update_self _ _ _
      rw [hself, Handles.mem_setNext hxt, hzero]
      rfl

/-- The handles of a page that `mmap` returns. -/
theorem mem_mapPage (hi : i < m) : (mapPage sz page m s).mem (page + i * sz) = .zero :=
  if_pos ⟨i, hi, rfl⟩

theorem Linked.mapped (h : Linked s live f) (hout : ∀ i < m, page + i * sz ∉ live ++ f) :
    Linked (mapPage sz page m s) live f :=
  h.frame (fun _ ha => if_neg fun ⟨i, hi, heq⟩ => hout i hi (heq ▸ ha)) rfl rfl rfl

/-- The handles of a page. -/
def slots (sz page m : Nat) : List Nat := (List.range m).map (page + · * sz)

/-- `_dl_get_handle` hands out a handle of the free list, or of a new page. -/
theorem Linked.getHandle (h : Linked s live f) (hsz : 0 < sz) (hps : sz ≤ ps)
    (hpage : s.freeList = 0 → page ≠ 0 ∧ ∀ i < ps / sz, page + i * sz ∉ live) :
    ∃ t f' s', dlGetHandle ps sz page s = some (t, s') ∧ Linked s' (live ++ [t]) f' ∧
      { s'.mem t with next := 0, prev := 0 } = Handle.zero ∧
      t :: f' = if s.freeList = 0 then slots sz page (ps / sz) else f := by
  have key {s₁ : Handles} {g : List Nat} (h : Linked s₁ live g) (hne : g ≠ []) :
      ∃ t f' s', (if s₁.freeList = 0 then none else
        (hang s₁.freeList (pop s₁)).map fun s' => (s₁.freeList, s')) = some (t, s') ∧
        Linked s' (live ++ [t]) f' ∧ { s'.mem t with next := 0, prev := 0 } = Handle.zero ∧
        t :: f' = g := by
    obtain ⟨t, f', rfl⟩ := List.exists_cons_of_ne_nil hne
    obtain ⟨hpop, hfree, ht, h0, hzero⟩ := h.popped
    obtain ⟨s', hs', hlinked, hz⟩ := hpop.hung ht h0 hzero
    refine ⟨t, f', s', ?_, hlinked, hz, rfl⟩
    rw [hfree, if_neg h0, hs']
    rfl
  unfold dlGetHandle
  by_cases hnone : s.freeList = 0
  · obtain ⟨h0, hout⟩ := hpage hnone
    have hnil : f = [] := by
      have hfree := h.free
      rw [hnone] at hfree
      exact hfree.head_nil
    subst hnil
    have hout' : ∀ i < ps / sz, page + i * sz ∉ live ++ [] := by rwa [List.append_nil]
    obtain ⟨s₁, hs₁, hlinked⟩ := (h.mapped hout').freedPage hsz hout' h0 fun i hi => mem_mapPage hi
    rw [List.append_nil] at hlinked
    have hpos : 0 < ps / sz := Nat.div_pos hps hsz
    rw [if_pos hnone, if_pos hnone, hs₁, Option.bind_some]
    exact key hlinked (List.ne_nil_of_length_pos (by rwa [slots, List.length_map, List.length_range]))
  · rw [if_neg hnone, if_neg hnone, Option.bind_some]
    refine key h fun hnil => hnone ?_
    subst hnil
    exact h.free.head_of_nil

/-! ## Runs -/

/-- The lists are well formed, and every handle is in a page. -/
structure RunInv (ps sz : Nat) (r : HandleRun) (f : List Nat) : Prop where
  linked : Linked r.s r.live f
  pages : ∀ a ∈ r.live ++ f, ∃ q ∈ r.pages, a ∈ slots sz q (ps / sz)

theorem mem_slots {q : Nat} (h : a ∈ slots sz q (ps / sz)) (hsz : 0 < sz) : q ≤ a ∧ a < q + ps := by
  obtain ⟨i, hi, rfl⟩ := List.mem_map.mp h
  have hmul : (i + 1) * sz ≤ ps :=
    (Nat.mul_le_mul_right sz (List.mem_range.mp hi)).trans (Nat.div_mul_le_self ps sz)
  rw [Nat.add_mul, Nat.one_mul] at hmul
  omega

/-- What is written to other fields of a handle in use does not change the lists. -/
theorem Linked.filled (h : Linked s live f) (hdh : dh ∈ live) (x : Handle) :
    Linked { s with mem := update s.mem dh { x with next := s.next dh, prev := s.prev dh } } live f := by
  have hn (a : Nat) :
      (update s.mem dh { x with next := s.next dh, prev := s.prev dh } a).next = s.next a := by
    by_cases ha : a = dh
    · subst ha
      rw [update_self]
    · rw [update_of_ne ha]
      rfl
  have hp (a : Nat) :
      (update s.mem dh { x with next := s.next dh, prev := s.prev dh } a).prev = s.prev a := by
    by_cases ha : a = dh
    · subst ha
      rw [update_self]
    · rw [update_of_ne ha]
      rfl
  have hf : ∀ a ∈ f, a ≠ dh := fun a ha heq =>
    (List.nodup_append.mp h.nodup).2.2 dh hdh a ha heq.symm
  exact {
    chain := h.chain.frame (fun a _ => hn a) fun a _ => hp a
    root := h.root
    top := h.top
    free := h.free.frame fun a _ => hn a
    zeroed := fun a ha => by
      dsimp only
      rw [update_of_ne (hf a ha), h.zeroed a ha]
    nodup := h.nodup
    nonnull := h.nonnull }

/-- Every call keeps the lists, and does not follow a null pointer. -/
theorem RunInv.step {r : HandleRun} (h : RunInv ps sz r f) (hsz : 0 < sz) (hps : sz ≤ ps)
    {op : HandleOp} (hop : r.Allowed ps op) :
    ∃ r' f', r.step ps sz op = some r' ∧ RunInv ps sz r' f' ∧
      ∀ page, op = .get page → ∃ dh, r'.live = r.live ++ [dh] ∧
        { r'.s.mem dh with next := 0, prev := 0 } = Handle.zero := by
  cases op with
  | get page =>
    have hpage : r.s.freeList = 0 → page ≠ 0 ∧ ∀ i < ps / sz, page + i * sz ∉ r.live := by
      intro hnone
      obtain ⟨h0, hapart⟩ := hop hnone
      refine ⟨h0, fun i hi hm => ?_⟩
      obtain ⟨q, hq, hslot⟩ := h.pages _ (List.mem_append_left f hm)
      have hin := mem_slots hslot hsz
      have hin' := mem_slots (List.mem_map_of_mem (f := (page + · * sz)) (List.mem_range.mpr hi)) hsz
      rcases hapart q hq with hlt | hlt <;> omega
    obtain ⟨t, f', s', hs', hlinked, hzero, hlist⟩ := h.linked.getHandle hsz hps hpage
    refine ⟨⟨s', r.live ++ [t], if r.s.freeList = 0 then page :: r.pages else r.pages⟩, f', ?_,
      ⟨hlinked, ?_⟩, ?_⟩
    · rw [HandleRun.step, hs']
      rfl
    · intro a ha
      rw [List.append_assoc, List.singleton_append, hlist, List.mem_append] at ha
      by_cases hnone : r.s.freeList = 0
      · rw [if_pos hnone] at ha ⊢
        rcases ha with ha | ha
        · obtain ⟨q, hq, hslot⟩ := h.pages a (List.mem_append_left f ha)
          exact ⟨q, List.mem_cons_of_mem _ hq, hslot⟩
        · exact ⟨page, List.mem_cons_self, ha⟩
      · rw [if_neg hnone] at ha ⊢
        exact h.pages a (List.mem_append.mpr ha)
    · exact fun _ _ => ⟨t, rfl, hzero⟩
  | free dh =>
    obtain ⟨l₁, l₂, hlive⟩ := List.append_of_mem (show dh ∈ r.live from hop)
    have hlinked := h.linked
    have hpages := h.pages
    rw [hlive] at hlinked hpages
    have hl₁ : dh ∉ l₁ := fun hm => hlinked.nodup_out.2
      (List.mem_append_left f (List.mem_append_left l₂ hm))
    have herase : r.live.erase dh = l₁ ++ l₂ := by
      rw [hlive, List.erase_append_right _ hl₁, List.erase_cons_head]
    obtain ⟨s', hs', hlinked'⟩ := hlinked.freeHandle
    refine ⟨⟨s', r.live.erase dh, r.pages⟩, dh :: f, ?_, ⟨?_, fun a ha => hpages a ?_⟩,
      fun _ hget => nomatch hget⟩
    · rw [HandleRun.step, hs']
      rfl
    · dsimp only
      rwa [herase]
    · rw [herase] at ha
      simp only [List.mem_append, List.mem_cons] at ha ⊢
      tauto
  | fill dh x =>
    exact ⟨_, f, rfl, ⟨h.linked.filled hop x, h.pages⟩, fun _ hget => nomatch hget⟩

theorem runInv_start (mem : Nat → Handle) : RunInv ps sz (.start mem) [] where
  linked := {
    chain := trivial
    root := rfl
    top := rfl
    free := .nil
    zeroed := fun _ ha => nomatch ha
    nodup := List.nodup_nil
    nonnull := List.not_mem_nil }
  pages := fun _ ha => nomatch ha

theorem Reached.inv {r : HandleRun} (h : Reached ps sz r) (hsz : 0 < sz) (hps : sz ≤ ps) :
    ∃ f, RunInv ps sz r f := by
  induction h with
  | start mem => exact ⟨[], runInv_start mem⟩
  | step _ hop hstep ih =>
    obtain ⟨f, hinv⟩ := ih
    obtain ⟨r', f', hstep', hinv', -⟩ := hinv.step hsz hps hop
    rw [hstep] at hstep'
    exact ⟨f', Option.some.inj hstep' ▸ hinv'⟩

/-- The handles in use are listed from the root in the order in which they were handed out, with `prev`
as the inverse of `next`; those on the free list are others. -/
structure ListsRight (s : Handles) (live : List Nat) : Prop where
  links : Links s.next 0 s.root live
  inverse : ∀ a ∈ live, ∀ b ∈ live, s.next a = b ↔ s.prev b = a
  root : s.root ≠ 0 → s.prev s.root = 0
  top : s.top = live.getLastD 0
  free : ∃ f, Links s.next 0 s.freeList f ∧ f.Disjoint live

theorem Linked.right (h : Linked s live f) : ListsRight s live where
  links := h.root ▸ h.chain.links h.nonnull
  inverse := fun _ ha _ hb => h.chain.inverse h.nonnull ha hb
  root := by
    intro hne
    have hchain := h.chain
    have hroot := h.root
    cases live with
    | nil => exact absurd hroot hne
    | cons x live =>
      rw [hroot]
      exact hchain.1
  top := h.top
  free := ⟨f, h.free, fun a ha hb => (List.nodup_append.mp h.nodup).2.2 a hb a ha rfl⟩

/-- **The lists of handles are well formed after every sequence of calls**, and every further call
comes to its end; a handle that is handed out is zero but for its links. -/
theorem handles_right {r : HandleRun} (hsz : 0 < sz) (hps : sz ≤ ps) (h : Reached ps sz r) :
    ListsRight r.s r.live ∧ ∀ op, r.Allowed ps op → ∃ r', r.step ps sz op = some r' ∧
      ∀ page, op = .get page → ∃ dh, r'.live = r.live ++ [dh] ∧
        { r'.s.mem dh with next := 0, prev := 0 } = Handle.zero := by
  obtain ⟨f, hinv⟩ := h.inv hsz hps
  refine ⟨hinv.linked.right, fun op hop => ?_⟩
  obtain ⟨r', f', hstep, -, hget⟩ := hinv.step hsz hps hop
  exact ⟨r', hstep, hget⟩

/-- The state at the start, with pages of 4096 bytes and handles of 136. -/
theorem handles_right_start :
    ListsRight (HandleRun.start fun _ => .zero).s [] ∧
      ∀ op, (HandleRun.start fun _ => .zero).Allowed 4096 op →
        ∃ r', (HandleRun.start fun _ => .zero).step 4096 136 op = some r' ∧
          ∀ page, op = .get page → ∃ dh, r'.live = [] ++ [dh] ∧
            { r'.s.mem dh with next := 0, prev := 0 } = Handle.zero :=
  handles_right (by decide) (by decide) (.start _)

end Dietlibc.Loader
