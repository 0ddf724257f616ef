import Mathlib.Data.List.TakeWhile
import Dietlibc.Base.Mem
import Dietlibc.Dns.Name

/-!
# Queries

`res_mkquery`. The array `packet` is a memory that starts out with arbitrary bytes; `rand` and
the flag of `_res.options` are arguments.
-/

namespace Dietlibc.Dns

/-- `'.'`. -/
def dot : UInt8 := 46

/-- `"\xfe\xfe\001\000\000\001\000\000\000\000\000\000"`. -/
def dnspacket : List UInt8 := [0xfe, 0xfe, 1, 0, 0, 1, 0, 0, 0, 0, 0, 0]

theorem dropWhile_lt {y : List UInt8} (h : (y.dropWhile (· = dot)).takeWhile (· ≠ dot) ≠ []) :
    ((y.dropWhile (· = dot)).dropWhile (· ≠ dot)).length < y.length := by
  have h1 := List.length_dropWhile_le (· = dot) y
  have h2 := congrArg List.length
    (List.takeWhile_append_dropWhile (p := (· ≠ dot)) (l := y.dropWhile (· = dot)))
  have h3 := List.length_pos_iff.mpr h
  rw [List.length_append] at h2
  omega

/-- `while (*y)`: `x` is where the next byte goes and `len` counts the bytes so far. The loop ends
with the place of the terminator, or with `-1`. -/
def nameLoop (y : List UInt8) (x len : Nat) (packet : Mem) : Option (Nat × Mem) :=
  if y = [] then some (x, packet)
  else
    let y1 := y.dropWhile (· = dot)
    let label := y1.takeWhile (· ≠ dot)
    let tmp := y1.dropWhile (· ≠ dot)
    if 63 < label.length then none
    else
      let packet := packet.store x [UInt8.ofNat label.length]
      if _h : label = [] then some (x, packet)
      else
        let len := len + (label.length + 1)
        if 254 < len then none
        else
          let packet := packet.store (x + 1) label
          let x := x + 1 + label.length
          if tmp = [] then some (x, packet.store x [0]) else nameLoop tmp x len packet
termination_by y.length
decreasing_by exact dropWhile_lt _h

/-- The header: an identifier from `rand`, and `op`. -/
def header (rand : Nat) (recurse : Bool) (op : Int) (packet : Mem) : Mem :=
  let packet := packet.store 0 dnspacket
  let packet := packet.store 0 [UInt8.ofNat rand, UInt8.ofNat (rand / 256)]
  let packet := if recurse then packet else packet.store 2 [0]
  packet.store 2 [packet 2 ||| UInt8.ofInt (op % 8 * 8)]

/-- `res_mkquery`: the bytes of `buf`, as many as it returns, or `none` for `-1`. -/
def resMkquery (rand : Nat) (recurse : Bool) (op : Int) (dname : List UInt8) (cls type : Int)
    (buflen : Int) (packet : Mem) : Option (List UInt8) :=
  match nameLoop dname 12 0 (header rand recurse op packet) with
  | none => none
  | some (x, packet) =>
    let packet := packet.store (x + 1) [0, UInt8.ofInt type, 0, UInt8.ofInt cls]
    let x := x + 5
    if buflen < x then none else some (packet.load 0 x)

end Dietlibc.Dns
