import Mathlib.Data.List.Basic

/-!
# Sets between brackets

A set of bytes as it is written between brackets is a list of bytes and of ranges `x-y`.
-/

namespace Dietlibc

/-- A byte, or the range `x-y`. -/
inductive Item where
  | one (x : UInt8)
  | range (x y : UInt8)
  deriving DecidableEq

namespace Item

def text : Item → List UInt8
  | one x => [x]
  | range x y => [x, 45, y]

def first : Item → UInt8
  | one x => x
  | range x _ => x

def last : Item → UInt8
  | one x => x
  | range _ y => y

def denotes (b : UInt8) : Item → Bool
  | one x => b = x
  | range x y => x ≤ b && b ≤ y

theorem first_mem (i : Item) : i.first ∈ i.text := by cases i <;> exact List.mem_cons_self

theorem last_mem (i : Item) : i.last ∈ i.text := by
  cases i with
  | one x => exact List.mem_cons_self
  | range x y => exact List.mem_cons_of_mem _ (List.mem_cons_of_mem _ List.mem_cons_self)

end Item

end Dietlibc
