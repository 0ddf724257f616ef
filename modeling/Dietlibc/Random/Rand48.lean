import Mathlib.Tactic
import Dietlibc.Base.CInt
import Dietlibc.Base.Congruential

/-!
# The 48-bit generators

`calc_next`, `srand48`, `seed48`, `lcong48` and the four functions with integer results. The
elements of a `randbuf` are promoted to `int`: a product or a sum that overflows wraps. The callers
of `nrand48` and `jrand48` have buffers of their own, which are named by numbers.
-/

namespace Dietlibc.Random

open CInt Congruential

/-- `randbuf`, the lowest limb first -/
structure Randbuf where
  x0 : UInt16
  x1 : UInt16
  x2 : UInt16

def Randbuf.val (b : Randbuf) : Int := b.x0.toNat + 2 ^ 16 * b.x1.toNat + 2 ^ 32 * b.x2.toNat

/-- `A_0`, `A_1` and `A_2` -/
def multiplier : Randbuf := ⟨0xE66D, 0xDEEC, 0x5⟩

/-- `C` -/
def addend : UInt16 := 0xB

/-- `rand48buf`, `a` and `c`, and the buffers of the callers. -/
structure World where
  rand48buf : Randbuf
  a : Randbuf
  c : UInt16
  xsubi : Nat → Randbuf

/-- `t & 0xffff` -/
def low16 (t : Int) : UInt16 := UInt16.ofNat (t % 2 ^ 16).toNat

def calcNext (a : Randbuf) (c : UInt16) (buf : Randbuf) : Randbuf :=
  let t := conv 32 (buf.x0.toNat * a.x0.toNat + c.toNat)
  let tmp0 := low16 t
  let tmp1 := low16 (t / 2 ^ 16)
  let t := conv 32 (buf.x1.toNat * a.x0.toNat + buf.x0.toNat * a.x1.toNat + tmp1.toNat)
  let tmp1 := low16 t
  let tmp2 := low16 (t / 2 ^ 16)
  let t := conv 32 (buf.x2.toNat * a.x0.toNat + buf.x1.toNat * a.x1.toNat +
    buf.x0.toNat * a.x2.toNat + tmp2.toNat)
  ⟨tmp0, tmp1, low16 t⟩

def jrand48 (a : Randbuf) (c : UInt16) (buf : Randbuf) : Int × Randbuf :=
  let ret := conv 32 (buf.x2.toNat <<< 16 ||| buf.x1.toNat : Nat)
  (ret, calcNext a c buf)

def nrand48 (a : Randbuf) (c : UInt16) (buf : Randbuf) : Int × Randbuf :=
  let r := jrand48 a c buf
  (r.1 % 2 ^ 31, r.2)

def srand48 (seed : Int) (w : World) : World :=
  { w with rand48buf := ⟨0x330e, low16 (seed / 2 ^ 16), low16 seed⟩, a := multiplier, c := addend }

/-- `seed48`: the old buffer and the new state. -/
def seed48 (buf : Randbuf) (w : World) : Randbuf × World :=
  (w.rand48buf, { w with rand48buf := buf, a := multiplier, c := addend })

def lcong48 (param : Fin 7 → UInt16) (w : World) : World :=
  { w with
    rand48buf := ⟨param 0, param 1, param 2⟩
    a := ⟨param 3, param 4, param 5⟩
    c := param 6 }

/-- A call of one of the four functions. -/
inductive Draw where
  | lrand48
  | mrand48
  | nrand48 (i : Nat)
  | jrand48 (i : Nat)

/-- A buffer, `none` for `rand48buf`. -/
def World.buffer (w : World) : Option Nat → Randbuf
  | none => w.rand48buf
  | some i => w.xsubi i

def World.setBuffer (w : World) : Option Nat → Randbuf → World
  | none, buf => { w with rand48buf := buf }
  | some i, buf => { w with xsubi := Function.update w.xsubi i buf }

/-- A call on a buffer: the result and the state behind it. -/
def World.on (w : World) (b : Option Nat) (f : Randbuf → UInt16 → Randbuf → Int × Randbuf) :
    Int × World :=
  let r := f w.a w.c (w.buffer b)
  (r.1, w.setBuffer b r.2)

def World.draw (w : World) : Draw → Int × World
  | .lrand48 => w.on none Random.nrand48
  | .mrand48 => w.on none Random.jrand48
  | .nrand48 i => w.on (some i) Random.nrand48
  | .jrand48 i => w.on (some i) Random.jrand48

def World.draws (w : World) (ds : List Draw) : World := ds.foldl (fun w d => (w.draw d).2) w

/-! ## A step of the generator -/

theorem toNat_low16 (t : Int) : ((low16 t).toNat : Int) = t % 2 ^ 16 := by
  unfold low16
  rw [UInt16.toNat_ofNat_of_lt' (by simp only [UInt16.size]; omega)]
  omega

/-- The low half of a product that wraps. -/
theorem low16_conv (t : Int) : ((low16 (conv 32 t)).toNat : Int) = t % 2 ^ 16 := by
  have h := conv_emod32 t
  rw [toNat_low16]
  omega

/-- The high half of a product that wraps. -/
theorem low16_conv_div (t : Int) :
    ((low16 (conv 32 t / 2 ^ 16)).toNat : Int) = t % 2 ^ 32 / 2 ^ 16 := by
  have h := conv_emod32 t
  rw [toNat_low16]
  omega

/-- A number of 48 bits from the sums of the products of limbs, with what each hands to the next. -/
theorem limbs (p0 p1 p2 k : Int) (h0 : 0 ≤ p0) (h1 : p0 < 2 ^ 32) :
    (p0 + 2 ^ 16 * p1 + 2 ^ 32 * p2 + 2 ^ 48 * k) % 2 ^ 48 =
      p0 % 2 ^ 16 + 2 ^ 16 * ((p1 + p0 % 2 ^ 32 / 2 ^ 16) % 2 ^ 16) +
        2 ^ 32 * ((p2 + (p1 + p0 % 2 ^ 32 / 2 ^ 16) % 2 ^ 32 / 2 ^ 16) % 2 ^ 16) := by
  omega

/-- **`calc_next` is the step of the sequence**: the carries that the `int`s lose lie above bit 47. -/
theorem val_calcNext (a : Randbuf) (c : UInt16) (buf : Randbuf) :
    (calcNext a c buf).val = (a.val * buf.val + c.toNat) % 2 ^ 48 := by
  have hc := c.toNat_lt
  have hprod : buf.x0.toNat * a.x0.toNat ≤ 65535 * 65535 :=
    Nat.mul_le_mul (Nat.le_of_lt_succ buf.x0.toNat_lt) (Nat.le_of_lt_succ a.x0.toNat_lt)
  have hlimbs := limbs (buf.x0.toNat * a.x0.toNat + c.toNat)
    (buf.x1.toNat * a.x0.toNat + buf.x0.toNat * a.x1.toNat)
    (buf.x2.toNat * a.x0.toNat + buf.x1.toNat * a.x1.toNat + buf.x0.toNat * a.x2.toNat)
    (buf.x2.toNat * a.x1.toNat + buf.x1.toNat * a.x2.toNat + 2 ^ 16 * buf.x2.toNat * a.x2.toNat)
    (by positivity) (by exact_mod_cast (by omega))
  unfold calcNext Randbuf.val
  simp only [low16_conv, low16_conv_div]
  rw [← hlimbs]
  congr 1
  ring

theorem val_bounds (b : Randbuf) : 0 ≤ b.val ∧ b.val < 2 ^ 48 := by
  have h0 := b.x0.toNat_lt
  have h1 := b.x1.toNat_lt
  have h2 := b.x2.toNat_lt
  unfold Randbuf.val
  omega

@[simp] theorem jrand48_snd (a : Randbuf) (c : UInt16) (buf : Randbuf) :
    (jrand48 a c buf).2 = calcNext a c buf := by
  unfold jrand48
  rfl

@[simp] theorem nrand48_snd (a : Randbuf) (c : UInt16) (buf : Randbuf) :
    (nrand48 a c buf).2 = calcNext a c buf := by
  unfold nrand48
  exact jrand48_snd a c buf

/-- `jrand48` returns what the buffer holds before the step. -/
theorem jrand48_fst (a : Randbuf) (c : UInt16) (buf : Randbuf) :
    (jrand48 a c buf).1 = conv 32 (buf.val / 2 ^ 16) := by
  have h0 := buf.x0.toNat_lt
  have h1 : buf.x1.toNat < 2 ^ 16 := buf.x1.toNat_lt
  unfold jrand48 Randbuf.val
  rw [← Nat.shiftLeft_add_eq_or_of_lt h1, Nat.shiftLeft_eq]
  dsimp only
  congr 1
  push_cast
  omega

theorem nrand48_fst (a : Randbuf) (c : UInt16) (buf : Randbuf) :
    (nrand48 a c buf).1 = buf.val / 2 ^ 16 % 2 ^ 31 := by
  have h := conv_emod32 (buf.val / 2 ^ 16)
  unfold nrand48
  dsimp only
  rw [jrand48_fst]
  omega

/-! ## Runs -/

/-- The buffer of a call. -/
def Draw.buffer : Draw → Option Nat
  | lrand48 => none
  | mrand48 => none
  | nrand48 i => some i
  | jrand48 i => some i

theorem setBuffer_frame (w : World) (b : Option Nat) (buf : Randbuf) :
    (w.setBuffer b buf).a = w.a ∧ (w.setBuffer b buf).c = w.c := by
  cases b <;> exact ⟨rfl, rfl⟩

theorem setBuffer_buffer (w : World) (b b' : Option Nat) (buf : Randbuf) :
    (w.setBuffer b buf).buffer b' = if b = b' then buf else w.buffer b' := by
  cases b with
  | none => cases b' <;> rfl
  | some i =>
    cases b' with
    | none => rfl
    | some j =>
      show Function.update w.xsubi i buf j = _
      simp only [Option.some.injEq]
      rcases eq_or_ne i j with rfl | hij
      · rw [Function.update_self, if_pos rfl]
      · rw [Function.update_of_ne hij.symm, if_neg hij]
        rfl

theorem on_fst (w : World) (b : Option Nat) (f : Randbuf → UInt16 → Randbuf → Int × Randbuf) :
    (w.on b f).1 = (f w.a w.c (w.buffer b)).1 := rfl

/-- A call steps its own buffer only. -/
theorem draw_snd (w : World) (d : Draw) :
    (w.draw d).2 = w.setBuffer d.buffer (calcNext w.a w.c (w.buffer d.buffer)) := by
  cases d with
  | lrand48 => exact congrArg (w.setBuffer none) (nrand48_snd w.a w.c _)
  | mrand48 => exact congrArg (w.setBuffer none) (jrand48_snd w.a w.c _)
  | nrand48 i => exact congrArg (w.setBuffer (some i)) (nrand48_snd w.a w.c _)
  | jrand48 i => exact congrArg (w.setBuffer (some i)) (jrand48_snd w.a w.c _)

/-- The calls on a buffer. -/
def onBuffer (b : Option Nat) (ds : List Draw) : Nat := ds.countP fun d => d.buffer = b

/-- **The state of a buffer after a run** is the sequence at the number of the calls on it. -/
theorem draws_buffer (w : World) (ds : List Draw) (b : Option Nat) :
    ((w.draws ds).buffer b).val =
      orbit w.a.val w.c.toNat (2 ^ 48) (w.buffer b).val (onBuffer b ds) := by
  induction ds generalizing w with
  | nil => rfl
  | cons d ds ih =>
    have hd : w.draws (d :: ds) = (w.draw d).2.draws ds := rfl
    have hframe := setBuffer_frame w d.buffer (calcNext w.a w.c (w.buffer d.buffer))
    rw [hd, ih, draw_snd, hframe.1, hframe.2, setBuffer_buffer, onBuffer, onBuffer,
      List.countP_cons]
    by_cases h : d.buffer = b
    · rw [if_pos h, if_pos (decide_eq_true h), h, val_calcNext, orbit_step]
    · rw [if_neg h, if_neg (by simpa using h), Nat.add_zero]

/-! ## The sequence of the standard -/

/-- A call that installs a state, a multiplier and an addend. -/
inductive Install where
  | srand48 (seed : Int)
  | seed48 (buf : Randbuf)
  | lcong48 (param : Fin 7 → UInt16)

def Install.run (w : World) : Install → World
  | srand48 seed => Random.srand48 seed w
  | seed48 buf => (Random.seed48 buf w).2
  | lcong48 param => Random.lcong48 param w

/-- `X_0`: the seed of `srand48` stands above `0x330E`. -/
def Install.start : Install → Int
  | srand48 seed => seed % 2 ^ 32 * 2 ^ 16 + 0x330E
  | seed48 buf => buf.val
  | lcong48 param => Randbuf.val ⟨param 0, param 1, param 2⟩

/-- The state with the two halves of the seed exchanged. -/
def Install.exchanged : Install → Int
  | srand48 seed => seed % 2 ^ 16 * 2 ^ 32 + seed / 2 ^ 16 % 2 ^ 16 * 2 ^ 16 + 0x330E
  | seed48 buf => buf.val
  | lcong48 param => Randbuf.val ⟨param 0, param 1, param 2⟩

def Install.multiplier : Install → Int
  | lcong48 param => Randbuf.val ⟨param 3, param 4, param 5⟩
  | _ => 0x5DEECE66D

def Install.addend : Install → Int
  | lcong48 param => (param 6).toNat
  | _ => 0xB

/-- The sequence on a buffer from its first element. -/
def Install.sequence (i : Install) (x : Int) : Nat → Int :=
  orbit i.multiplier i.addend (2 ^ 48) x

/-- The first element on a buffer, where `x` is the one of `rand48buf`. -/
def World.first (w : World) (x : Int) : Option Nat → Int
  | none => x
  | some i => (w.xsubi i).val

/-- The bits of an element that the standard asks for: the high 31, or the high 32 with a sign. -/
def Draw.high (x : Int) : Draw → Int
  | lrand48 => x / 2 ^ 17
  | nrand48 _ => x / 2 ^ 17
  | mrand48 => conv 32 (x / 2 ^ 16)
  | jrand48 _ => conv 32 (x / 2 ^ 16)

/-- The bits from bit 16 of the element before, 31 or 32 of them, are the high bits of the next. -/
def Draw.Repeats (y x : Int) : Draw → Prop
  | lrand48 => y / 2 ^ 16 % 2 ^ 31 = x / 2 ^ 17
  | nrand48 _ => y / 2 ^ 16 % 2 ^ 31 = x / 2 ^ 17
  | mrand48 => y / 2 ^ 16 = x / 2 ^ 16
  | jrand48 _ => y / 2 ^ 16 = x / 2 ^ 16

theorem install_buffer (w : World) (i : Install) (b : Option Nat) :
    ((i.run w).buffer b).val = w.first i.exchanged b := by
  cases b with
  | some j => cases i <;> rfl
  | none =>
    cases i with
    | seed48 buf => rfl
    | lcong48 param => rfl
    | srand48 seed =>
      show Randbuf.val ⟨0x330e, low16 (seed / 2 ^ 16), low16 seed⟩ = _
      unfold Randbuf.val World.first Install.exchanged
      simp only [toNat_low16]
      have h : ((0x330e : UInt16).toNat : Int) = 0x330e := rfl
      omega

theorem multiplier_val : multiplier.val = 0x5DEECE66D := by decide

theorem install_frame (w : World) (i : Install) :
    (i.run w).a.val = i.multiplier ∧ ((i.run w).c.toNat : Int) = i.addend := by
  cases i with
  | srand48 seed => exact ⟨multiplier_val, rfl⟩
  | seed48 buf => exact ⟨multiplier_val, rfl⟩
  | lcong48 param => exact ⟨rfl, rfl⟩

/-- The bits that a call returns, of an element. -/
def Draw.returned (y : Int) : Draw → Int
  | lrand48 => y / 2 ^ 16 % 2 ^ 31
  | nrand48 _ => y / 2 ^ 16 % 2 ^ 31
  | mrand48 => conv 32 (y / 2 ^ 16)
  | jrand48 _ => conv 32 (y / 2 ^ 16)

theorem draw_fst (w : World) (d : Draw) : (w.draw d).1 = d.returned (w.buffer d.buffer).val := by
  cases d with
  | lrand48 => exact (on_fst w none Random.nrand48).trans (nrand48_fst ..)
  | nrand48 i => exact (on_fst w (some i) Random.nrand48).trans (nrand48_fst ..)
  | mrand48 => exact (on_fst w none Random.jrand48).trans (jrand48_fst ..)
  | jrand48 i => exact (on_fst w (some i) Random.jrand48).trans (jrand48_fst ..)

theorem conv_inj {x y : Int} (hx : 0 ≤ x ∧ x < 2 ^ 32) (hy : 0 ≤ y ∧ y < 2 ^ 32) :
    conv 32 x = conv 32 y ↔ x = y := by
  refine ⟨fun h => ?_, fun h => by rw [h]⟩
  have h1 := conv_emod32 x
  have h2 := conv_emod32 y
  omega

end Dietlibc.Random
