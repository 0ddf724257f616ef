import Dietlibc.Shell.Fnmatch

/-!
# `glob`

A `glob_t` has its vector as a value: the block that `gl_pathv` points to, and what its slots hold. The
world has the blocks in use. What the environment answers, an allocation that fails for one, depends on
the time, which counts the calls. `Exit` and `World.lost` are not in the program: they say where `glob`
was left, and that a `realloc` of a vector failed.
-/

namespace Dietlibc.Glob

open Shell (fnmatch slash period star quest lbracket)

abbrev tilde : UInt8 := 126

abbrev Name := List UInt8

/-- Undefined behaviour, and too little fuel for the recursion. -/
inductive Stop where
  | fault
  | fuel
  deriving DecidableEq

/-! ## Memory -/

structure World where
  live : List Nat
  next : Nat
  time : Nat
  lost : Bool

def enotdir : Int := 20
def efault : Int := 14

/-- What the environment answers: `stat` is whether there is a directory, `opendir` gives the names or
`errno`. -/
structure Env where
  fails : Nat → Bool
  opendir : Nat → Name → Except Int (List Name)
  stat : Nat → Name → Bool
  errfunc : Option (Nat → Option Name → Int → Bool)
  home : Option Name
  getpwnam : Name → Option Name

def World.tick (w : World) : World := { w with time := w.time + 1 }

/-- `malloc`, with the size left out. -/
def World.malloc (e : Env) (w : World) : Option Nat × World :=
  if e.fails w.time then (none, w.tick)
  else (some w.next, { w.tick with live := w.next :: w.live, next := w.next + 1 })

def World.free (b : Nat) (w : World) : Except Stop World :=
  if b ∈ w.live then .ok { w with live := w.live.erase b } else .error .fault

/-- `realloc`, which moves the block. -/
def World.realloc (e : Env) (old : Option Nat) (w : World) : Except Stop (Option Nat × World) :=
  match old with
  | none => .ok (w.malloc e)
  | some b =>
    if b ∈ w.live then
      match w.malloc e with
      | (none, w) => .ok (none, w)
      | (some c, w) => .ok (some c, { w with live := w.live.erase b })
    else .error .fault

/-! ## `glob_t` -/

/-- A string of `strdup`. -/
structure Str where
  id : Nat
  text : Name

/-- What `gl_pathv` points to. A slot that was never written counts as a null pointer. -/
structure Vec where
  id : Nat
  slots : List (Option Str)

/-- `GLOB_ERR` and so on; `unknown` are bits that are not in `__GLOB_FLAGS`. -/
structure Flags where
  err : Bool
  mark : Bool
  nosort : Bool
  dooffs : Bool
  nocheck : Bool
  append : Bool
  noescape : Bool
  period : Bool
  altdirfunc : Bool
  onlydir : Bool
  tilde : Bool
  tildeCheck : Bool
  unknown : Bool

/-- `glob_t` -/
structure GlobT where
  pathc : Nat
  pathv : Option Vec
  offs : Nat
  flags : Flags

def globNospace : Int := 1
def globAborted : Int := 2
def globNomatch : Int := 3

/-- `gl_pathv[gl_offs]` to `gl_pathv[gl_offs+gl_pathc-1]` -/
def GlobT.entries (g : GlobT) : List (Option Str) :=
  match g.pathv with
  | none => []
  | some v => (v.slots.drop g.offs).take g.pathc

/-- The slots of a vector with `n` of them. -/
def resize (n : Nat) (slots : List (Option Str)) : List (Option Str) :=
  slots.take n ++ List.replicate (n - slots.length) none

/-- `realloc` of a vector to `n` slots. -/
def reallocVec (e : Env) (n : Nat) (v : Option Vec) (w : World) :
    Except Stop (Option Vec × World) := do
  match ← w.realloc e (v.map Vec.id) with
  | (none, w) => return (none, { w with lost := w.lost || v.isSome })
  | (some b, w) => return (some ⟨b, resize n (v.elim [] Vec.slots)⟩, w)

/-- The slots with a string at `i`, and a null pointer behind it. -/
def putEntry (i : Nat) (s : Option Str) (slots : List (Option Str)) : List (Option Str) :=
  (slots.set i s).set (i + 1) none

/-- `add_entry`: whether it was added. -/
def addEntry (e : Env) (name : Name) (g : GlobT) (w : World) :
    Except Stop (Bool × GlobT × World) := do
  match ← reallocVec e (g.pathc + g.offs + 2) g.pathv w with
  | (none, w) => return (false, { g with pathv := none }, w)
  | (some v, w) =>
    let (b, w) := w.malloc e
    let v := { v with slots := putEntry (g.offs + g.pathc) (b.map (⟨·, name⟩)) v.slots }
    return (true, { g with pathv := some v, pathc := g.pathc + 1 }, w)

def freeAll : List (Option Str) → World → Except Stop World
  | [], w => .ok w
  | none :: l, w => freeAll l w
  | some s :: l, w => do freeAll l (← w.free s.id)

/-- `globfree` -/
def globfree (g : GlobT) (w : World) : Except Stop World :=
  match g.pathv with
  | none => .ok w
  | some v =>
    if v.id ∈ w.live then do (← freeAll g.entries w).free v.id
    else .error .fault

/-! ## One directory -/

/-- `build_fullname` -/
def buildFullname (directory filename : Name) : Name :=
  if directory = [slash] then slash :: filename
  else if directory = [period] then filename
  else directory ++ slash :: filename

/-- The loop over the names of a directory, with `nfound`; false is a lack of memory. -/
def addMatches (e : Env) (pattern directory : Name) (flags : Flags) :
    List Name → Nat → GlobT → World → Except Stop (Bool × Nat × GlobT × World)
  | [], nfound, g, w => .ok (true, nfound, g, w)
  | name :: names, nfound, g, w =>
    let ptr := buildFullname directory name
    if flags.onlydir ∧ e.stat w.time ptr = false then
      addMatches e pattern directory flags names nfound g w
    else if fnmatch ⟨flags.noescape, false, !flags.period, false, false⟩ false none pattern name = 0 then do
      match ← addEntry e ptr g w with
      | (true, g, w) => addMatches e pattern directory flags names (nfound + 1) g w
      | (false, g, w) => return (false, nfound, g, w)
    else addMatches e pattern directory flags names nfound g w

/-- The end of `glob_in_dir`. -/
def afterDir (e : Env) (pattern : Name) (directory : Option Name) (flags : Flags) (nfound : Nat)
    (g : GlobT) (w : World) : Except Stop (Int × GlobT × World) :=
  if nfound ≠ 0 then .ok (0, { g with flags := flags }, w)
  else if flags.nocheck then
    match directory with
    | none => .error .fault
    | some directory => do
      let (ok, g, w) ← addEntry e (buildFullname directory pattern) g w
      return (if ok then 0 else globNospace, g, w)
  else .ok (globNomatch, g, w)

/-- `glob_in_dir` -/
def globInDir (e : Env) (pattern : Name) (directory : Option Name) (flags : Flags) (g : GlobT)
    (w : World) : Except Stop (Int × GlobT × World) :=
  match directory.elim (.error efault) (e.opendir w.time) with
  | .error errno =>
    if errno ≠ enotdir ∧ ((e.errfunc.any fun f => f w.time directory errno) ∨ flags.err) then
      .ok (globAborted, g, w.tick)
    else afterDir e pattern directory flags 0 g w.tick
  | .ok names => do
    let (ok, nfound, g, w) ← addMatches e pattern (directory.getD []) flags names 0 g w.tick
    if ok then afterDir e pattern directory flags nfound g w else return (globNospace, g, w)

/-! ## `glob` -/

/-- Where `glob` was left: before `pglob` was set up, through `globfree(pglob)`, with a vector or without
one, or elsewhere. -/
inductive Exit where
  | early
  | freed (vector : Bool)
  | plain
  deriving DecidableEq

/-- The pattern with a home directory; `none` is one that is not there. -/
def expandTilde (e : Env) (flags : Flags) (pattern : Name) : Option Name :=
  if (flags.tilde ∨ flags.tildeCheck) ∧ pattern.head? = some tilde then
    let user := pattern.tail.takeWhile (· ≠ slash)
    match if user = [] then e.home else e.getpwnam user with
    | some home => some (home ++ pattern.tail.dropWhile (· ≠ slash))
    | none => if flags.tildeCheck then none else some pattern
  else some pattern

/-- `dirname` and `filename` -/
def splitPath (pattern : Name) : Name × Name :=
  let filename := (pattern.reverse.takeWhile (· ≠ slash)).reverse
  if filename.length = pattern.length then ([period], pattern)
  else if filename.length + 1 = pattern.length then ([slash], filename)
  else (pattern.take (pattern.length - filename.length - 1), filename)

/-- Without `GLOB_DOOFFS`, `gl_offs` is set. -/
def baseOffs (flags : Flags) (g : GlobT) : GlobT := if flags.dooffs then g else { g with offs := 0 }

/-- The memory for `pglob`: whether there is any. -/
def reserve (e : Env) (flags : Flags) (g : GlobT) (w : World) : Bool × GlobT × World :=
  if flags.append then (true, g, w)
  else if flags.dooffs then
    match w.malloc e with
    | (none, w) => (false, { g with pathc := 0, pathv := none }, w)
    | (some b, w) =>
      (true, { g with pathc := 0, pathv := some ⟨b, List.replicate (g.offs + 1) none⟩ }, w)
  else (true, { g with pathc := 0, pathv := none }, w)

/-- The flags for the directories. -/
def dirFlags (flags : Flags) : Flags where
  err := flags.err
  mark := false
  nosort := true
  dooffs := false
  nocheck := flags.nocheck
  append := false
  noescape := flags.noescape
  period := false
  altdirfunc := flags.altdirfunc
  onlydir := true
  tilde := false
  tildeCheck := false
  unknown := false

/-- `glob_in_dir` in one directory after the other, up to an error. -/
def inDirs (e : Env) (filename : Name) (flags : Flags) :
    List (Option Str) → GlobT → World → Except Stop (Int × GlobT × World)
  | [], g, w => .ok (0, g, w)
  | d :: dirs, g, w => do
    let (j, g, w) ← globInDir e filename (d.map Str.text)
      { flags with append := true, nocheck := false } g w
    if j = 0 ∨ j = globNomatch then inDirs e filename flags dirs g w else return (j, g, w)

/-- What the loop for `GLOB_NOCHECK` comes to. -/
inductive Added where
  | all
  | noVector
  | noString

/-- The directories followed by the filename. -/
def addDirs (e : Env) (filename : Name) :
    List (Option Str) → GlobT → World → Except Stop (Added × GlobT × World)
  | [], g, w => .ok (.all, g, w)
  | none :: dirs, g, w => addDirs e filename dirs g w
  | some d :: dirs, g, w =>
    if e.stat w.time d.text = false then addDirs e filename dirs g w
    else do
      let j := g.pathc + g.offs
      match ← reallocVec e (j + 2) g.pathv w with
      | (none, w) => return (.noVector, { g with pathv := none }, w)
      | (some v, w) =>
        match w.malloc e with
        | (none, w) =>
          let v := { v with slots := v.slots.set j none }
          return (.noString, { g with pathv := some v }, w)
        | (some b, w) =>
          let v := { v with slots := putEntry j (some ⟨b, buildFullname d.text filename⟩) v.slots }
          addDirs e filename dirs { g with pathv := some v, pathc := g.pathc + 1 } w

/-- The loop for `GLOB_MARK` over `k` entries from `i` on: whether there was memory. -/
def markFrom (e : Env) : Nat → Nat → GlobT → World → Except Stop (Bool × GlobT × World)
  | 0, _, g, w => .ok (true, g, w)
  | k + 1, i, g, w =>
    match g.pathv with
    | none => .error .fault
    | some v =>
      match v.slots.getD i none with
      | none => markFrom e k (i + 1) g w
      | some s =>
        if e.stat w.time s.text then do
          match ← w.realloc e (some s.id) with
          | (none, w) => return (false, g, w)
          | (some b, w) =>
            let v := { v with slots := v.slots.set i (some ⟨b, s.text ++ [slash]⟩) }
            markFrom e k (i + 1) { g with pathv := some v } w
        else markFrom e k (i + 1) g w

/-- `strcmp(a,b) <= 0` -/
def strcmpLe : Name → Name → Bool
  | [], _ => true
  | _ :: _, [] => false
  | a :: l, b :: m => if a = b then strcmpLe l m else a < b

/-- `cmp_func`, null pointers last. -/
def cmpFunc : Option Str → Option Str → Bool
  | _, none => true
  | none, some _ => false
  | some s, some t => strcmpLe s.text t.text

/-- `qsort` of the entries from `oldcount` on. -/
def sortFrom (oldcount : Nat) (g : GlobT) : GlobT :=
  let sorted slots := slots.take oldcount ++
    ((slots.drop oldcount).take (g.pathc + g.offs - oldcount)).mergeSort cmpFunc ++
    slots.drop (g.pathc + g.offs)
  { g with pathv := g.pathv.map fun v => ⟨v.id, sorted v.slots⟩ }

/-- The end of `glob`. -/
def finish (e : Env) (flags : Flags) (oldcount : Nat) (g : GlobT) (w : World) :
    Except Stop (Int × Exit × GlobT × World) := do
  let (ok, g, w) ←
    if flags.mark then markFrom e (g.pathc + g.offs - oldcount) oldcount g w else .ok (true, g, w)
  if ok = false then return (globNospace, .freed g.pathv.isSome, g, ← globfree g w)
  return (0, .plain, if flags.nosort then g else sortFrom oldcount g, w)

/-- What follows the directories that were found. -/
def withDirs (e : Env) (filename : Name) (flags : Flags) (dirs : GlobT) (g : GlobT) (w : World) :
    Except Stop (Int × Exit × GlobT × World) := do
  let oldcount := g.pathc + g.offs
  let (j, g, w) ← inDirs e filename flags dirs.entries g w
  if j ≠ 0 then
    let w ← globfree dirs w
    return (j, .freed g.pathv.isSome, g, ← globfree g w)
  if g.pathc + g.offs = oldcount then
    if flags.nocheck then
      match ← addDirs e filename dirs.entries g w with
      | (.noVector, g, w) => return (globNospace, .plain, g, ← globfree dirs w)
      | (.noString, g, w) =>
        let w ← globfree dirs w
        return (globNospace, .freed g.pathv.isSome, g, ← globfree g w)
      | (.all, g, w) => finish e flags oldcount g (← globfree dirs w)
    else return (globNomatch, .plain, g, ← globfree dirs w)
  else finish e flags oldcount g (← globfree dirs w)

def wildcards : List UInt8 := [star, quest, lbracket]

/-- `glob`, with fuel for the recursion. `none` as the pattern is a null pointer. -/
def glob (e : Env) : Nat → Option Name → Flags → GlobT → World →
    Except Stop (Int × Exit × GlobT × World)
  | 0, _, _, _, _ => .error .fuel
  | _ + 1, none, _, g, w => .ok (-1, .early, g, w)
  | n + 1, some pattern, flags, g, w =>
    if flags.unknown then .ok (-1, .early, g, w)
    else
      let g := baseOffs flags g
      match expandTilde e flags pattern with
      | none => .ok (globNomatch, .early, g, w)
      | some pattern =>
        let (dirname, filename) := splitPath pattern
        if filename = [] ∧ pattern ≠ [] ∧ dirname ≠ [slash] then do
          let (j, exit, g, w) ← glob e n (some dirname) { flags with mark := true } g w
          return (j, exit,
            if j = 0 then { g with flags := { g.flags with mark := flags.mark } } else g, w)
        else
          match reserve e flags g w with
          | (false, g, w) => .ok (globNospace, .plain, g, w)
          | (true, g, w) =>
            if dirname = [slash] ∨ dirname = [period] ∨ dirname.all (· ∉ wildcards) then do
              let oldcount := g.pathc + g.offs
              let (j, g, w) ← globInDir e filename (some dirname) flags g w
              if j ≠ 0 then return (j, .plain, g, w)
              finish e flags oldcount g w
            else do
              let (j, _, dirs, w) ← glob e n (some dirname) (dirFlags flags)
                ⟨0, none, 0, dirFlags flags⟩ w
              if j ≠ 0 then return (j, .plain, g, w)
              withDirs e filename flags dirs g w

end Dietlibc.Glob
