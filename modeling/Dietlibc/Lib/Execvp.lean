import Dietlibc.Base.CInt
import Dietlibc.Base.Machine
import Dietlibc.Base.Mem
import Mathlib.Data.List.TakeWhile

/-!
# `execvp`

The components of `PATH` are put in front of the name in `buf`, one after the other, and passed to
`execve`, whose answers are a parameter. `strlen(file)` is an `int` where the length is checked and a
`size_t` where the name is copied.
-/

namespace Dietlibc.Lib

open CInt Machine Mem

/-- `PATH_MAX` -/
def pathMax : Nat := 4095

def ENOENT : Nat := 2

def ENOEXEC : Nat := 8

def EACCES : Nat := 13

def ENOTDIR : Nat := 20

def EINVAL : Nat := 22

/-- `_PATH_BSHELL`, `"/bin/sh"` -/
def bshell : List UInt8 := [47, 98, 105, 110, 47, 115, 104]

/-- `_PATH_DEFPATH`, `"/bin:/usr/bin:"` -/
def defpath : List UInt8 := [47, 98, 105, 110, 58, 47, 117, 115, 114, 47, 98, 105, 110, 58]

/-- A call of `execve`, with the strings for the pointers. -/
structure ExecCall where
  file : List UInt8
  argv : List (Option (List UInt8))
  deriving DecidableEq

/-- `-1` with an `errno`, or the process runs another program. -/
inductive Ended where
  | failed (errno : Nat)
  | replaced
  deriving DecidableEq

/-- The calls of `execve`, and how `execvp` ends. -/
structure Ran where
  calls : List ExecCall
  ended : Ended
  deriving DecidableEq

/-- How a call ends that is answered with this `errno`, or not at all. -/
def answered : Option Nat → Ended
  | some e => .failed e
  | none => .replaced

/-- Why no string comes about in `buf`. -/
inductive Trouble where
  | einval
  | outside

/-- The vector with its null pointer. -/
def vector (argv : List (List UInt8)) : List (Option (List UInt8)) := argv.map some ++ [none]

/-- `shell_argv` -/
def shellArgv (file : List UInt8) (argv : List (List UInt8)) : List (Option (List UInt8)) :=
  some bshell :: some file :: (vector argv).drop 1

/-- `strchr`, as the distance to the place that it returns. -/
def strchr (c : UInt8) : List UInt8 → Option (Option Nat)
  | [] => none
  | b :: s =>
    if b = c then some (some 0)
    else if b = 0 then some none
    else (strchr c s).map (·.map (· + 1))

/-- The distance to the end of the component: `strchr(cur,':')`, else `strlen(cur)`. -/
def endOf (cur : List UInt8) : Option Nat :=
  (strchr 58 cur).bind fun
    | some n => some n
    | none => (strchr 0 cur).bind id

/-- Bytes written to `buf`. -/
def writeBuf (i : Int) (v : List UInt8) (buf : Mem) : Except Trouble Mem :=
  if 0 ≤ i ∧ i + v.length ≤ pathMax then .ok (buf.store i.toNat v) else .error .outside

/-- The component from `cur` to `next` at the start of `buf`. An empty one is a dot, and `cur` goes
back by one. -/
def startOf (path : List UInt8) (cur next : Nat) (buf : Mem) : Except Trouble (Int × Mem) :=
  if next = cur then (writeBuf 0 [46] buf).map fun buf => (cur - 1, buf)
  else if pathMax - 3 ≤ (next : Int) - cur then .error .einval
  else (writeBuf 0 ((path.drop cur).take (next - cur)) buf).map fun buf => (cur, buf)

/-- The slash and the name behind it. -/
def assemble (path file : List UInt8) (cur next : Nat) (buf : Mem) : Except Trouble Mem :=
  (startOf path cur next buf).bind fun (cur, buf) =>
  (writeBuf (next - cur) [47] buf).bind fun buf =>
  if pathMax - 2 ≤ conv 32 file.length + (next - cur) then .error .einval
  else writeBuf (next - cur + 1) (file ++ [0]) buf

/-- The string in `buf`. -/
def stringIn (buf : Mem) : Option (List UInt8) :=
  if 0 ∈ buf.load 0 pathMax then some ((buf.load 0 pathMax).takeWhile (· ≠ 0)) else none

section

variable (exec : List ExecCall → Option Nat) (argv : List (List UInt8))

/-- `__exec_shell` -/
def execShell (file : List UInt8) (calls : List ExecCall) : Ran :=
  let calls := calls ++ [⟨bshell, shellArgv file argv⟩]
  ⟨calls, answered (exec calls)⟩

/-- The head of the loop. -/
structure Searching where
  cur : Nat
  buf : Mem
  calls : List ExecCall

/-- What follows the answer of `execve`: `exec calls` is its answer to the last one of `calls`. -/
def afterExec (path name : List UInt8) (next : Nat) (buf : Mem) (calls : List ExecCall) :
    Next Searching Ran Unit :=
  match exec calls with
  | none => .stop ⟨calls, .replaced⟩
  | some e =>
    if e = ENOEXEC then .stop (execShell exec argv name calls)
    else if e ≠ EACCES ∧ e ≠ ENOENT ∧ e ≠ ENOTDIR then .stop ⟨calls, .failed e⟩
    else if (path ++ [0])[next]? = some 0 then .stop ⟨calls, .failed e⟩
    else .again ⟨next + 1, buf, calls⟩

/-- One turn of the loop. -/
def execvpStep (path file : List UInt8) (s : Searching) : Next Searching Ran Unit :=
  match endOf ((path ++ [0]).drop s.cur) with
  | none => .fault ()
  | some n =>
    match assemble (path ++ [0]) file s.cur (s.cur + n) s.buf with
    | .error .outside => .fault ()
    | .error .einval => .stop ⟨s.calls, .failed EINVAL⟩
    | .ok buf =>
      match stringIn buf with
      | none => .fault ()
      | some name =>
        afterExec exec argv path name (s.cur + n) buf (s.calls ++ [⟨name, vector argv⟩])

/-- The call of a name with a slash. -/
def execSlash (file : List UInt8) : Ran :=
  let calls := [⟨file, vector argv⟩]
  match exec calls with
  | none => ⟨calls, .replaced⟩
  | some e => if e = ENOEXEC then execShell exec argv file calls else ⟨calls, .failed e⟩

/-- `execvp` ends with `r`; `path` is the value of `PATH`, and `buf` what is on the stack. -/
def Execvp (path : Option (List UInt8)) (file : List UInt8) (buf : Mem) (r : Ran) : Prop :=
  if 47 ∈ file then r = execSlash exec argv file
  else Stops (execvpStep exec argv (path.getD defpath) file) ⟨0, buf, []⟩ r

end

/-! ## What is asked of it -/

/-- The components of the search path. -/
def components (path : Option (List UInt8)) : List (List UInt8) := (path.getD defpath).splitOn 58

/-- The component, `.` for an empty one. -/
def directory (c : List UInt8) : List UInt8 := if c = [] then [46] else c

def candidate (file c : List UInt8) : List UInt8 := directory c ++ 47 :: file

def candidateCall (argv : List (List UInt8)) (file c : List UInt8) : ExecCall :=
  ⟨candidate file c, vector argv⟩

/-- The component and the name are short enough for `buf`. -/
def Short (file c : List UInt8) : Prop := max 1 c.length + file.length ≤ pathMax - 3

instance (file c : List UInt8) : Decidable (Short file c) := inferInstanceAs (Decidable (_ ≤ _))

/-- The search goes on behind this answer. -/
def Passes (a : Option Nat) : Prop := a = some EACCES ∨ a = some ENOENT ∨ a = some ENOTDIR

/-- The search goes on behind each of the calls. -/
def AllPass (exec : List ExecCall → Option Nat) (calls : List ExecCall) : Prop :=
  ∀ k < calls.length, Passes (exec (calls.take (k + 1)))

section

variable (exec : List ExecCall → Option Nat) (argv : List (List UInt8))

/-- How the search ends with the last call, whose answer does not pass. -/
def stopped (file c : List UInt8) (calls : List ExecCall) : Ran :=
  if exec calls = some ENOEXEC then execShell exec argv (candidate file c) calls
  else ⟨calls, answered (exec calls)⟩

/-- `execvp` stays in `buf`. It calls `execve` for each of the components in order, as long as they are
short enough and the answers pass; it ends with the first answer that does not pass, or with
`EINVAL`. -/
structure ExecvpRight (path : Option (List UInt8)) (file : List UInt8) (buf : Mem) : Prop where
  inside : ∃ r, Execvp exec argv path file buf r
  tries : (∀ c ∈ components path, Short file c) →
    AllPass exec ((components path).map (candidateCall argv file)) →
    ∃ e, Execvp exec argv path file buf
      ⟨(components path).map (candidateCall argv file), .failed e⟩
  stops : ∀ cs c ds, components path = cs ++ c :: ds → (∀ d ∈ cs ++ [c], Short file d) →
    AllPass exec (cs.map (candidateCall argv file)) →
    ¬Passes (exec ((cs ++ [c]).map (candidateCall argv file))) →
    Execvp exec argv path file buf
      (stopped exec argv file c ((cs ++ [c]).map (candidateCall argv file)))
  einval : ∀ cs c ds, components path = cs ++ c :: ds → (∀ d ∈ cs, Short file d) →
    AllPass exec (cs.map (candidateCall argv file)) → ¬Short file c →
    Execvp exec argv path file buf ⟨cs.map (candidateCall argv file), .failed EINVAL⟩

end

/-- An `int` holds the length of the name; or a guard holds for the first component whatever the
length is. -/
def ExecvpFits (path : Option (List UInt8)) (file : List UInt8) : Prop :=
  file.length < 2 ^ 31 ∨ ∃ c ∈ (components path).head?, pathMax - 3 ≤ c.length ∨
    (pathMax : Int) - 2 ≤ conv 32 file.length + (max 1 c.length : Nat)

variable {exec : List ExecCall → Option Nat} {argv : List (List UInt8)} {path file s c r : List UInt8}
  {cs ds : List (List UInt8)} {buf : Mem} {calls : List ExecCall} {cur n : Nat} {b : UInt8}

/-! ## The components -/

theorem strchr_found (h : b ∉ s) (h0 : 0 ∉ s) (r : List UInt8) :
    strchr b (s ++ b :: r) = some (some s.length) := by
  induction s with
  | nil => exact if_pos rfl
  | cons a s ih =>
    obtain ⟨ha, hs⟩ := not_or.mp (mt List.mem_cons.mpr h)
    obtain ⟨ha0, hs0⟩ := not_or.mp (mt List.mem_cons.mpr h0)
    rw [List.cons_append, strchr, if_neg (Ne.symm ha), if_neg (Ne.symm ha0), ih hs hs0]
    rfl

theorem strchr_missing (hb : b ≠ 0) (h : b ∉ s) (h0 : 0 ∉ s) (r : List UInt8) :
    strchr b (s ++ 0 :: r) = some none := by
  induction s with
  | nil => rw [List.nil_append, strchr, if_neg (Ne.symm hb), if_pos rfl]
  | cons a s ih =>
    obtain ⟨ha, hs⟩ := not_or.mp (mt List.mem_cons.mpr h)
    obtain ⟨ha0, hs0⟩ := not_or.mp (mt List.mem_cons.mpr h0)
    rw [List.cons_append, strchr, if_neg (Ne.symm ha), if_neg (Ne.symm ha0), ih hs hs0]
    rfl

theorem exists_component (s : List UInt8) :
    ∃ c r, s = c ++ r ∧ 58 ∉ c ∧ (r = [] ∨ ∃ t, r = 58 :: t) := by
  induction s with
  | nil => exact ⟨[], [], rfl, List.not_mem_nil, .inl rfl⟩
  | cons a s ih =>
    by_cases ha : a = 58
    · exact ⟨[], a :: s, rfl, List.not_mem_nil, .inr ⟨s, ha ▸ rfl⟩⟩
    · obtain ⟨c, r, rfl, hc, hr⟩ := ih
      exact ⟨a :: c, r, rfl, List.not_mem_cons_of_ne_of_not_mem (Ne.symm ha) hc, hr⟩

/-- `next` is at the end of the component. -/
theorem endOf_component (hc : 58 ∉ c) (h0 : 0 ∉ c ++ r) (hr : r = [] ∨ ∃ t, r = 58 :: t) :
    endOf (c ++ r ++ [0]) = some c.length := by
  have hc0 : 0 ∉ c := fun h => h0 (List.mem_append_left r h)
  unfold endOf
  rcases hr with rfl | ⟨t, rfl⟩
  · rw [List.append_nil, strchr_missing (by decide) hc hc0]
    change (strchr 0 (c ++ [0])).bind id = some c.length
    rw [strchr_found hc0 hc0]
    rfl
  · rw [List.append_assoc, List.cons_append, strchr_found hc hc0]
    rfl

/-! ## The buffer -/

theorem length_directory (c : List UInt8) : (directory c).length = max 1 c.length := by
  unfold directory
  split
  · rename_i h
    rw [h]
    rfl
  · rename_i h
    have := List.length_pos_iff.mpr h
    omega

theorem writeBuf_eq {i : Int} (hi : i = n) (v : List UInt8) (buf : Mem) :
    writeBuf i v buf = if n + v.length ≤ pathMax then .ok (buf.store n v) else .error .outside := by
  subst hi
  unfold writeBuf
  rw [Int.toNat_natCast]
  by_cases h : n + v.length ≤ pathMax
  · rw [if_pos h, if_pos (by omega)]
  · rw [if_neg h, if_neg (by omega)]

theorem startOf_eq (h : (path.drop cur).take c.length = c) (buf : Mem) :
    startOf path cur (cur + c.length) buf =
      if pathMax - 3 ≤ c.length then .error .einval
      else .ok ((cur : Int) + c.length - (directory c).length, buf.store 0 (directory c)) := by
  unfold startOf
  rw [writeBuf_eq Nat.cast_zero.symm, writeBuf_eq Nat.cast_zero.symm, Nat.add_sub_cancel_left, h,
    length_directory]
  by_cases hc : c = []
  · subst hc
    rw [List.length_nil, if_pos (Nat.add_zero cur), if_pos (by decide), if_neg (by decide)]
    exact congrArg (fun x => Except.ok (x, buf.store 0 [46])) (by simp)
  · have hpos := List.length_pos_iff.mpr hc
    have hdir : directory c = c := if_neg hc
    rw [if_neg (by omega), hdir, max_eq_right hpos]
    by_cases hlong : pathMax - 3 ≤ c.length
    · rw [if_pos (by unfold pathMax at *; omega), if_pos hlong]
    · rw [if_neg (by unfold pathMax at *; omega), if_neg hlong,
        if_pos (by unfold pathMax at *; omega)]
      exact congrArg (fun x => Except.ok (x, buf.store 0 c)) (by omega)

theorem assemble_eq (h : (path.drop cur).take c.length = c) (file : List UInt8) (buf : Mem) :
    assemble path file cur (cur + c.length) buf =
      if pathMax - 3 ≤ c.length then .error .einval
      else if (pathMax : Int) - 2 ≤ conv 32 file.length + (max 1 c.length : Nat) then .error .einval
      else if max 1 c.length + file.length + 2 ≤ pathMax then
        .ok (buf.store 0 (candidate file c ++ [0]))
      else .error .outside := by
  unfold assemble
  rw [startOf_eq h]
  by_cases hlong : pathMax - 3 ≤ c.length
  · rw [if_pos hlong, if_pos hlong]
    rfl
  · have hlen := length_directory c
    have hdist : ((cur + c.length : Nat) : Int) - (cur + c.length - (directory c).length) =
        (directory c).length := by omega
    have hslash : (buf.store 0 (directory c)).store (directory c).length [47] =
        buf.store 0 (directory c ++ [47]) := by
      rw [← store_append, Nat.zero_add]
    have hname : (buf.store 0 (directory c ++ [47])).store ((directory c).length + 1) (file ++ [0]) =
        buf.store 0 (candidate file c ++ [0]) := by
      have happ := store_append (m := buf) (a := 0) (directory c ++ [47]) (file ++ [0])
      rw [List.length_append, List.length_singleton, Nat.zero_add] at happ
      rw [happ, candidate]
      simp only [List.append_assoc, List.cons_append, List.nil_append]
    rw [if_neg hlong, if_neg hlong, Except.bind]
    dsimp only
    have hsum : (directory c).length.succ + (file.length + 1) =
        (directory c).length + file.length + 2 := by omega
    rw [hdist, writeBuf_eq rfl, hlen, List.length_singleton, if_pos (by unfold pathMax at *; omega),
      ← hlen, hslash, Except.bind, writeBuf_eq (Nat.cast_succ _).symm, hname, List.length_append,
      List.length_singleton, hsum]

theorem stringIn_store (h0 : 0 ∉ s) (hlen : s.length < pathMax) (buf : Mem) :
    stringIn (buf.store 0 (s ++ [0])) = some s := by
  obtain ⟨hmem, htake⟩ := takeWhile_load h0 hlen (load_store_self (m := buf) (a := 0) (by simp))
  rw [stringIn, if_pos hmem, htake]

/-! ## One component -/

/-- A component begins at `cur`. -/
structure Facing (path : List UInt8) (cur : Nat) (c : List UInt8) (cs : List (List UInt8)) : Prop where
  le : cur ≤ path.length
  parts : (path.drop cur).splitOn 58 = c :: cs

theorem exists_facing (hcur : cur ≤ path.length) : ∃ c cs, Facing path cur c cs := by
  obtain ⟨c, cs, hparts⟩ := List.exists_cons_of_ne_nil (List.splitOn_ne_nil 58 (path.drop cur))
  exact ⟨c, cs, hcur, hparts⟩

/-- A component ends at the terminator, or at the colon in front of the next one. -/
theorem Facing.cut (h : Facing path cur c cs) : ∃ r, path.drop cur = c ++ r ∧ 58 ∉ c ∧
    (r = [] ∧ cs = [] ∨ ∃ t, r = 58 :: t ∧ path.drop (cur + c.length + 1) = t ∧
      cur + c.length + 1 ≤ path.length ∧ t.splitOn 58 = cs) := by
  obtain ⟨d, r, hd, hcolon, hr⟩ := exists_component (path.drop cur)
  have hparts := h.parts
  have hle := h.le
  rw [hd] at hparts
  rcases hr with rfl | ⟨t, rfl⟩
  · rw [List.append_nil, List.splitOn_eq_singleton hcolon] at hparts
    obtain ⟨rfl, rfl⟩ := List.cons.inj hparts
    exact ⟨[], hd, hcolon, .inl ⟨rfl, rfl⟩⟩
  · rw [List.splitOn_append_cons_self_of_not_mem hcolon] at hparts
    obtain ⟨rfl, rfl⟩ := List.cons.inj hparts
    have hlen := congrArg List.length hd
    rw [List.length_drop, List.length_append, List.length_cons] at hlen
    refine ⟨58 :: t, hd, hcolon, .inr ⟨t, rfl, ?_, by omega, rfl⟩⟩
    rw [Nat.add_assoc, ← List.drop_drop, hd, ← List.drop_drop, List.drop_left]
    rfl

theorem candidate_zero (h0 : 0 ∉ c) (hf : 0 ∉ file) : 0 ∉ candidate file c := by
  unfold candidate directory
  split <;> simp [h0, hf]

theorem length_candidate (file c : List UInt8) :
    (candidate file c).length = max 1 c.length + file.length + 1 := by
  rw [candidate, List.length_append, length_directory, List.length_cons, Nat.add_assoc]

theorem Facing.zero (h : Facing path cur c cs) (hp : 0 ∉ path) : 0 ∉ c := by
  obtain ⟨r, hr, -⟩ := h.cut
  exact fun h0 => hp (List.mem_of_mem_drop (hr ▸ List.mem_append_left r h0))

theorem Facing.endOf_eq (h : Facing path cur c cs) (hp : 0 ∉ path) :
    endOf ((path ++ [0]).drop cur) = some c.length := by
  obtain ⟨r, hr, hcolon, hend⟩ := h.cut
  have h0 : 0 ∉ c ++ r := fun h0 => hp (List.mem_of_mem_drop (hr ▸ h0))
  rw [List.drop_append_of_le_length h.le, hr]
  refine endOf_component hcolon h0 ?_
  rcases hend with ⟨rfl, -⟩ | ⟨t, rfl, -⟩
  · exact .inl rfl
  · exact .inr ⟨t, rfl⟩

theorem Facing.assemble_eq (h : Facing path cur c cs) (file : List UInt8) (buf : Mem) :
    assemble (path ++ [0]) file cur (cur + c.length) buf =
      if pathMax - 3 ≤ c.length then .error .einval
      else if (pathMax : Int) - 2 ≤ conv 32 file.length + (max 1 c.length : Nat) then .error .einval
      else if max 1 c.length + file.length + 2 ≤ pathMax then
        .ok (buf.store 0 (candidate file c ++ [0]))
      else .error .outside := by
  obtain ⟨r, hr, -⟩ := h.cut
  refine Lib.assemble_eq ?_ file buf
  rw [List.drop_append_of_le_length h.le, hr, List.append_assoc, List.take_left]

theorem conv_length (hlt : file.length < 2 ^ 31) : conv 32 file.length = file.length :=
  conv_low (by decide) hlt

/-- A turn of the loop calls `execve` with the candidate, or ends with `EINVAL`. -/
theorem Facing.turn (h : Facing path cur c cs) (hp : 0 ∉ path) (hf : 0 ∉ file) (hne : file ≠ [])
    (hlt : file.length < 2 ^ 31) (buf : Mem) (calls : List ExecCall) :
    execvpStep exec argv path file ⟨cur, buf, calls⟩ =
      if Short file c then
        afterExec exec argv path (candidate file c) (cur + c.length)
          (buf.store 0 (candidate file c ++ [0])) (calls ++ [candidateCall argv file c])
      else .stop ⟨calls, .failed EINVAL⟩ := by
  have hpos := List.length_pos_iff.mpr hne
  unfold execvpStep
  dsimp only
  rw [h.endOf_eq hp]
  dsimp only
  rw [h.assemble_eq, conv_length hlt]
  by_cases hshort : Short file c
  · have hroom : max 1 c.length + file.length ≤ pathMax - 3 := hshort
    rw [if_pos hshort, if_neg (by unfold pathMax at *; omega), if_neg (by unfold pathMax at *; omega),
      if_pos (by unfold pathMax at *; omega)]
    dsimp only
    rw [stringIn_store (candidate_zero (h.zero hp) hf)
      (by rw [length_candidate]; unfold pathMax at *; omega)]
    rfl
  · have hroom : ¬max 1 c.length + file.length ≤ pathMax - 3 := hshort
    rw [if_neg hshort]
    by_cases hlong : pathMax - 3 ≤ c.length
    · rw [if_pos hlong]
    · rw [if_neg hlong, if_pos (by unfold pathMax at *; omega)]

/-! ## The answers -/

theorem afterExec_stops {name : List UInt8} {next : Nat} (h : ¬Passes (exec calls))
    (hname : name = candidate file c) :
    afterExec exec argv path name next buf calls = .stop (stopped exec argv file c calls) := by
  subst hname
  unfold afterExec stopped
  cases he : exec calls with
  | none => rfl
  | some e =>
    rw [he] at h
    dsimp only
    by_cases hx : e = ENOEXEC
    · rw [if_pos hx, if_pos (congrArg some hx)]
    · have hnot : e ≠ EACCES ∧ e ≠ ENOENT ∧ e ≠ ENOTDIR :=
        ⟨fun h' => h (.inl (congrArg some h')), fun h' => h (.inr (.inl (congrArg some h'))),
          fun h' => h (.inr (.inr (congrArg some h')))⟩
      rw [if_neg hx, if_pos hnot, if_neg fun h' => hx (Option.some.inj h')]
      rfl

theorem afterExec_passes (h : Passes (exec calls)) (argv : List (List UInt8))
    (path name : List UInt8) (next : Nat) (buf : Mem) :
    ∃ e, afterExec exec argv path name next buf calls =
      if (path ++ [0])[next]? = some 0 then .stop ⟨calls, .failed e⟩
      else .again ⟨next + 1, buf, calls⟩ := by
  obtain ⟨e, he, hx, hpass⟩ : ∃ e, exec calls = some e ∧ e ≠ ENOEXEC ∧
      ¬(e ≠ EACCES ∧ e ≠ ENOENT ∧ e ≠ ENOTDIR) := by
    rcases h with h | h | h
    · exact ⟨EACCES, h, by decide, by decide⟩
    · exact ⟨ENOENT, h, by decide, by decide⟩
    · exact ⟨ENOTDIR, h, by decide, by decide⟩
  refine ⟨e, ?_⟩
  unfold afterExec
  rw [he]
  dsimp only
  rw [if_neg hx, if_neg hpass]

/-- Behind the last component the search ends, behind another one it goes on with the next one. -/
theorem Facing.next_eq (h : Facing path cur c cs) :
    (cs = [] ∧ (path ++ [0])[cur + c.length]? = some 0) ∨
      ∃ d ds, cs = d :: ds ∧ (path ++ [0])[cur + c.length]? ≠ some 0 ∧
        Facing path (cur + c.length + 1) d ds := by
  obtain ⟨r, hr, -, hend⟩ := h.cut
  have hget : (path ++ [0])[cur + c.length]? = (r ++ [0])[0]? := by
    rw [← List.getElem?_drop, List.drop_append_of_le_length h.le, hr, List.append_assoc,
      List.getElem?_append_right (Nat.le_refl _), Nat.sub_self]
  rcases hend with ⟨rfl, rfl⟩ | ⟨t, rfl, hdrop, hle, hparts⟩
  · exact .inl ⟨rfl, hget⟩
  · obtain ⟨d, ds, hds⟩ := List.exists_cons_of_ne_nil (List.splitOn_ne_nil 58 t)
    refine .inr ⟨d, ds, hparts.symm.trans hds, ?_, hle, ?_⟩
    · rw [hget]
      exact fun h58 => absurd (Option.some.inj h58) (by decide)
    · rw [hdrop, hds]

/-! ## The search -/

theorem allPass_at {call : ExecCall} {rest : List ExecCall} (h : AllPass exec (calls ++ call :: rest)) :
    Passes (exec (calls ++ [call])) := by
  have hk := h calls.length (by rw [List.length_append, List.length_cons]; omega)
  rwa [List.take_append, List.take_of_length_le (Nat.le_succ _), Nat.add_sub_cancel_left,
    List.take_succ_cons, List.take_zero] at hk

theorem AllPass.left {new : List ExecCall} (h : AllPass exec (calls ++ new)) : AllPass exec calls := by
  intro k hk
  have hp := h k (by rw [List.length_append]; omega)
  rwa [List.take_append_of_le_length hk] at hp

section

variable (hp : 0 ∉ path) (hf : 0 ∉ file) (hne : file ≠ []) (hlt : file.length < 2 ^ 31)
include hp hf hne hlt

/-- Components whose calls pass are left behind. -/
theorem Facing.meets {d : List UInt8} {es : List (List UInt8)} (h : Facing path cur d es)
    (hparts : d :: es = cs ++ c :: ds) (hshort : ∀ d ∈ cs, Short file d)
    (hpass : AllPass exec (calls ++ cs.map (candidateCall argv file))) (buf : Mem) :
    ∃ cur' buf', Facing path cur' c ds ∧ Meets (execvpStep exec argv path file) ⟨cur, buf, calls⟩
      ⟨cur', buf', calls ++ cs.map (candidateCall argv file)⟩ := by
  induction cs generalizing cur d es calls buf with
  | nil =>
    obtain ⟨rfl, rfl⟩ := List.cons.inj hparts
    refine ⟨cur, buf, h, ?_⟩
    rw [List.map_nil, List.append_nil]
    exact .refl _
  | cons e cs ih =>
    obtain ⟨rfl, rfl⟩ := List.cons.inj hparts
    rw [List.map_cons] at hpass ⊢
    obtain ⟨hd, hcs⟩ := List.forall_mem_cons.mp hshort
    rcases h.next_eq with ⟨hnil, -⟩ | ⟨d', es', hes, hend, hnext⟩
    · simp at hnil
    · obtain ⟨x, hx⟩ := afterExec_passes (allPass_at hpass) argv path (candidate file d)
        (cur + d.length) (buf.store 0 (candidate file d ++ [0]))
      have hturn : execvpStep exec argv path file ⟨cur, buf, calls⟩ = _ :=
        h.turn hp hf hne hlt buf calls
      rw [if_pos hd, hx, if_neg hend] at hturn
      rw [← List.singleton_append, ← List.append_assoc] at hpass ⊢
      obtain ⟨cur', buf', hat, hmeets⟩ := ih hnext hes.symm hcs hpass _
      exact ⟨cur', buf', hat, .step hturn hmeets⟩

/-- From a component on the search comes to its end. -/
theorem exists_stops (hcur : cur ≤ path.length) (buf : Mem) (calls : List ExecCall) :
    ∃ r, Stops (execvpStep exec argv path file) ⟨cur, buf, calls⟩ r := by
  obtain ⟨k, hk⟩ : ∃ k, cur + k = path.length := ⟨_, Nat.add_sub_of_le hcur⟩
  induction k using Nat.strong_induction_on generalizing cur buf calls with
  | _ k ih =>
    obtain ⟨c, cs, h⟩ := exists_facing hcur
    have hturn : execvpStep exec argv path file ⟨cur, buf, calls⟩ = _ := h.turn hp hf hne hlt buf calls
    by_cases hshort : Short file c
    · rw [if_pos hshort] at hturn
      by_cases hpass : Passes (exec (calls ++ [candidateCall argv file c]))
      · obtain ⟨e, he⟩ := afterExec_passes hpass argv path (candidate file c) (cur + c.length)
          (buf.store 0 (candidate file c ++ [0]))
        rcases h.next_eq with ⟨-, hend⟩ | ⟨d, ds, -, hend, hnext⟩
        · rw [he, if_pos hend] at hturn
          exact ⟨_, (stops_stop hturn).mpr rfl⟩
        · rw [he, if_neg hend] at hturn
          have hle := hnext.le
          obtain ⟨r, hr⟩ := ih (path.length - (cur + c.length + 1)) (by omega) hle _
            (calls ++ [candidateCall argv file c]) (by omega)
          exact ⟨r, (stops_again hturn).mpr hr⟩
      · rw [afterExec_stops hpass rfl] at hturn
        exact ⟨_, (stops_stop hturn).mpr rfl⟩
    · rw [if_neg hshort] at hturn
      exact ⟨_, (stops_stop hturn).mpr rfl⟩

end

theorem at_start {p : Option (List UInt8)} (h : components p = c :: cs) :
    Facing (p.getD defpath) 0 c cs :=
  ⟨Nat.zero_le _, h⟩

theorem execvp_iff {p : Option (List UInt8)} {r : Ran} (hs : 47 ∉ file) : Execvp exec argv p file buf r ↔
    Stops (execvpStep exec argv (p.getD defpath) file) ⟨0, buf, []⟩ r := by
  rw [Execvp, if_neg hs]

/-- The search from its start up to a component. -/
theorem execvp_meets {p : Option (List UInt8)} (hp : 0 ∉ p.getD defpath) (hf : 0 ∉ file)
    (hne : file ≠ []) (hlt : file.length < 2 ^ 31) (hparts : components p = cs ++ c :: ds)
    (hshort : ∀ d ∈ cs, Short file d) (hpass : AllPass exec (cs.map (candidateCall argv file)))
    (buf : Mem) : ∃ cur' buf', Facing (p.getD defpath) cur' c ds ∧
      Meets (execvpStep exec argv (p.getD defpath) file) ⟨0, buf, []⟩
        ⟨cur', buf', cs.map (candidateCall argv file)⟩ := by
  obtain ⟨d, es, hd⟩ := List.exists_cons_of_ne_nil (List.splitOn_ne_nil 58 (p.getD defpath))
  exact (at_start hd).meets hp hf hne hlt (hd.symm.trans hparts) hshort hpass buf

theorem execvpRight_of_lt {p : Option (List UInt8)} (hp : 0 ∉ p.getD defpath) (hf : 0 ∉ file)
    (hs : 47 ∉ file) (hne : file ≠ []) (hlt : file.length < 2 ^ 31) :
    ExecvpRight exec argv p file buf where
  inside := by
    obtain ⟨r, hr⟩ := exists_stops hp hf hne hlt (Nat.zero_le _) buf []
    exact ⟨r, (execvp_iff hs).mpr hr⟩
  tries := by
    intro hshort hpass
    obtain ⟨cs, c, hparts⟩ : ∃ cs c, components p = cs ++ [c] :=
      (List.eq_nil_or_concat' _).resolve_left (List.splitOn_ne_nil (58 : UInt8) (p.getD defpath))
    rw [hparts] at hshort hpass ⊢
    obtain ⟨hcs, hc⟩ := List.forall_mem_append.mp hshort
    rw [List.map_append, List.map_singleton] at hpass ⊢
    obtain ⟨cur, buf', hat, hmeets⟩ := execvp_meets hp hf hne hlt hparts hcs hpass.left buf
    obtain ⟨e, he⟩ := afterExec_passes (allPass_at hpass) argv (p.getD defpath) (candidate file c)
      (cur + c.length) (buf'.store 0 (candidate file c ++ [0]))
    rcases hat.next_eq with ⟨-, hend⟩ | ⟨d, ds, hnil, -⟩
    · refine ⟨e, ?_⟩
      rw [execvp_iff hs, hmeets.stops, stops_stop]
      rw [hat.turn hp hf hne hlt, if_pos (hc c List.mem_cons_self), he, if_pos hend]
    · cases hnil
  stops := by
    intro cs c ds hparts hshort hpass hstop
    obtain ⟨cur, buf', hat, hmeets⟩ := execvp_meets hp hf hne hlt hparts
      (fun d hd => hshort d (List.mem_append_left _ hd)) hpass buf
    rw [execvp_iff hs, hmeets.stops, stops_stop]
    rw [hat.turn hp hf hne hlt, if_pos (hshort c (List.mem_append_right _ List.mem_cons_self))]
    rw [List.map_append, List.map_singleton] at hstop ⊢
    exact afterExec_stops hstop rfl
  einval := by
    intro cs c ds hparts hshort hpass hlong
    obtain ⟨cur, buf', hat, hmeets⟩ := execvp_meets hp hf hne hlt hparts hshort hpass buf
    rw [execvp_iff hs, hmeets.stops, stops_stop (by rw [hat.turn hp hf hne hlt, if_neg hlong])]

/-! ## Names whose length an `int` does not hold -/

theorem not_short_of_long (hlong : 2 ^ 31 ≤ file.length) (c : List UInt8) : ¬Short file c := by
  unfold Short pathMax
  omega

/-- The first turn ends with `EINVAL` if a guard holds, and writes behind `buf` if none does. -/
theorem Facing.turn_long (h : Facing path cur c cs) (hp : 0 ∉ path) (hlong : 2 ^ 31 ≤ file.length)
    (buf : Mem) (calls : List ExecCall) : execvpStep exec argv path file ⟨cur, buf, calls⟩ =
      if pathMax - 3 ≤ c.length ∨ (pathMax : Int) - 2 ≤ conv 32 file.length + (max 1 c.length : Nat)
      then .stop ⟨calls, .failed EINVAL⟩
      else .fault () := by
  unfold execvpStep
  dsimp only
  rw [h.endOf_eq hp]
  dsimp only
  rw [h.assemble_eq]
  by_cases hfirst : pathMax - 3 ≤ c.length
  · rw [if_pos hfirst, if_pos (.inl hfirst)]
  · by_cases hsecond : (pathMax : Int) - 2 ≤ conv 32 file.length + (max 1 c.length : Nat)
    · rw [if_neg hfirst, if_pos hsecond, if_pos (.inr hsecond)]
    · rw [if_neg hfirst, if_neg hsecond, if_neg (by unfold pathMax; omega),
        if_neg (not_or.mpr ⟨hfirst, hsecond⟩)]

theorem execvpRight_long_iff {p : Option (List UInt8)} (hp : 0 ∉ p.getD defpath) (hs : 47 ∉ file)
    (hlong : 2 ^ 31 ≤ file.length) : ExecvpRight exec argv p file buf ↔
      ∃ c ∈ (components p).head?, pathMax - 3 ≤ c.length ∨
        (pathMax : Int) - 2 ≤ conv 32 file.length + (max 1 c.length : Nat) := by
  obtain ⟨c, cs, hparts⟩ := List.exists_cons_of_ne_nil (List.splitOn_ne_nil 58 (p.getD defpath))
  have hparts : components p = c :: cs := hparts
  have hturn : execvpStep exec argv (p.getD defpath) file ⟨0, buf, []⟩ = _ :=
    (at_start hparts).turn_long hp hlong buf []
  have hhead : (∃ d ∈ (components p).head?, pathMax - 3 ≤ d.length ∨
      (pathMax : Int) - 2 ≤ conv 32 file.length + (max 1 d.length : Nat)) ↔
      (pathMax - 3 ≤ c.length ∨
        (pathMax : Int) - 2 ≤ conv 32 file.length + (max 1 c.length : Nat)) := by
    rw [hparts]
    simp
  rw [hhead]
  constructor
  · intro h
    obtain ⟨r, hr⟩ := h.inside
    by_contra hguard
    rw [if_neg hguard] at hturn
    exact not_stops_fault hturn ((execvp_iff hs).mp hr)
  · intro hguard
    rw [if_pos hguard] at hturn
    have hrun : Execvp exec argv p file buf ⟨[], .failed EINVAL⟩ :=
      (execvp_iff hs).mpr ((stops_stop hturn).mpr rfl)
    refine ⟨⟨_, hrun⟩, fun hshort _ => ?_, fun ds d es _ hshort => ?_, fun ds d es _ hshort => ?_⟩
    · exact absurd (hshort c (hparts ▸ List.mem_cons_self)) (not_short_of_long hlong c)
    · exact absurd (hshort d (List.mem_append_right _ List.mem_cons_self)) (not_short_of_long hlong d)
    · cases ds with
      | nil => exact fun _ _ => hrun
      | cons e ds => exact absurd (hshort e List.mem_cons_self) (not_short_of_long hlong e)

/-- **`execvp` tries the components in order exactly if** an `int` holds the length of the name, or it
fails at once. -/
theorem execvp_right_iff {p : Option (List UInt8)} (hp : 0 ∉ p.getD defpath) (hf : 0 ∉ file)
    (hs : 47 ∉ file) (hne : file ≠ []) : ExecvpRight exec argv p file buf ↔ ExecvpFits p file := by
  by_cases hlt : file.length < 2 ^ 31
  · exact iff_of_true (execvpRight_of_lt hp hf hs hne hlt) (.inl hlt)
  · rw [execvpRight_long_iff hp hs (not_lt.mp hlt), ExecvpFits, or_iff_right hlt]

/-- `"ls"` in the default path. -/
theorem execvp_right_iff_ls :
    ExecvpRight (fun _ => some ENOENT) [[108, 115]] none [108, 115] (fun _ => 0) ↔
      ExecvpFits none [108, 115] :=
  execvp_right_iff (by decide) (by decide) (by decide) (by decide)

/-- A name of `2 ^ 31` bytes is written behind `buf`. -/
theorem execvp_overflows : ¬ExecvpRight (fun _ => some ENOENT) [] none (List.replicate (2 ^ 31) 97)
    (fun _ => 0) := by
  have hlen : (List.replicate (2 ^ 31) (97 : UInt8)).length = 2 ^ 31 := List.length_replicate
  rw [execvpRight_long_iff (by decide) (fun h => absurd (List.eq_of_mem_replicate h) (by decide))
    hlen.ge, hlen]
  decide

end Dietlibc.Lib
