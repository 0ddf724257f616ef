import Mathlib.Tactic

/-!
# The environment

`getenv`, `putenv`, `unsetenv` and `setenv` on the arrays of pointers behind `environ` and
`origenv`. An array is the list of its strings in front of the null pointer, a string the list of
its bytes in front of the NUL. The allocator is taken to succeed. The counters of the loops are
`int`s: one that leaves its type is undefined, and the call has no result.
-/

namespace Dietlibc.Lib

abbrev Str := List UInt8

/-- `'='` -/
def equals : UInt8 := 61

/-- `environ`, the static `origenv` of `putenv`, the arrays by their addresses, and the address
of the next allocation. The address 0 is the null pointer. -/
structure Environ where
  environ : Nat
  origenv : Nat
  arrays : Nat → List Str
  fresh : Nat

/-- The strings of the environment. -/
def Environ.strings (st : Environ) : List Str :=
  if st.environ = 0 then [] else st.arrays st.environ

/-- `memcmp(e,s,len)==0 && e[len]=='='` -/
def isEntry (s : Str) (len : Nat) (e : Str) : Bool :=
  e.take len == s.take len && e[len]? == some equals

/-- The loop of `getenv`. -/
def getenvLoop (s : Str) (len : Nat) : Nat → List Str → Option (Option Str)
  | _, [] => some none
  | i, e :: es =>
    if isEntry s len e then some (some (e.drop (len + 1)))
    else if i + 1 < 2 ^ 31 then getenvLoop s len (i + 1) es
    else none

/-- `getenv`. The length is an `unsigned int`. -/
def getenv (st : Environ) (s : Str) : Option (Option Str) :=
  getenvLoop s (s.length % 2 ^ 32) 0 st.strings

/-- Where the loop of `putenv` ends. -/
inductive Search where
  | found (i : Nat)
  | missing (envc : Nat)
  | overflow

def putenvLoop (string : Str) (len : Nat) : Nat → List Str → Search
  | envc, [] => .missing envc
  | envc, e :: es =>
    if string.head? = e.head? ∧ isEntry string len e then .found envc
    else if envc + 1 < 2 ^ 31 then putenvLoop string len (envc + 1) es
    else .overflow

/-- `newenv`: `realloc` of an array that `putenv` has allocated, a copy of one that it has not. -/
def Environ.grow (st : Environ) (string : Str) (envc : Nat) : Environ :=
  let arrays :=
    if st.environ = st.origenv then
      Function.update st.arrays st.fresh
        ((if envc = 0 then [] else (st.arrays st.origenv).take envc) ++ [string])
    else
      Function.update (Function.update st.arrays st.environ []) st.fresh
        ((st.arrays st.environ).take envc ++ [string])
  { st with environ := st.fresh, arrays, fresh := st.fresh + 1 }

/-- `putenv` -/
def putenv (string : Str) (st : Environ) : Option Environ :=
  let st := if st.origenv = 0 then { st with origenv := st.environ } else st
  let remove := !string.contains equals
  let len := (string.takeWhile (· != equals)).length
  match putenvLoop string len 0 st.strings with
  | .found i =>
    let es := if remove then st.strings.eraseIdx i else st.strings.set i string
    some { st with arrays := Function.update st.arrays st.environ es }
  | .missing envc =>
    if remove then some st
    else if envc + 2 < 2 ^ 31 then some (st.grow string envc)
    else none
  | .overflow => none

/-- `unsetenv` -/
def unsetenv (name : Str) (st : Environ) : Option Environ := putenv name st

/-- `setenv` -/
def setenv (name value : Str) (overwrite : Bool) (st : Environ) : Option Environ :=
  match getenv st name with
  | none => none
  | some none => putenv (name ++ equals :: value) st
  | some (some _) =>
    if overwrite then (unsetenv name st).bind (putenv (name ++ equals :: value))
    else some st

/-! ## Calls -/

inductive Call where
  | setenv (name value : Str) (overwrite : Bool)
  | putenvSet (name value : Str)
  | putenvName (name : Str)
  | unsetenv (name : Str)

namespace Call

def name : Call → Str
  | setenv name _ _ | putenvSet name _ | putenvName name | unsetenv name => name

/-- One call. -/
def exec : Call → Environ → Option Environ
  | setenv name value overwrite => Lib.setenv name value overwrite
  | putenvSet name value => putenv (name ++ equals :: value)
  | putenvName name => putenv name
  | unsetenv name => Lib.unsetenv name

end Call

/-- A name of a variable. -/
def IsName (n : Str) : Prop := n ≠ [] ∧ equals ∉ n

/-- Before the first call `putenv` knows no array; the allocator gives none that is in use. -/
structure Environ.Initial (st : Environ) : Prop where
  origenv : st.origenv = 0
  fresh : st.environ < st.fresh

end Dietlibc.Lib
