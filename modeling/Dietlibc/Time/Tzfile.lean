import Dietlibc.Base.CInt

/-!
# Time zone files

`__tzfile_map` on the bytes of a mapped file. Every read is checked against the end of the file,
and `int` arithmetic against its range; `none` is a read outside the file or an overflow. `Zone`
is a well-formed version 1 file, with its layout in `Zone.bytes`.
-/

namespace Dietlibc.Time

open CInt

/-! ## The code -/

/-- A byte of the file. -/
def byteAt (f : List UInt8) (p : Int) : Option UInt8 := if 0 ≤ p then f[p.toNat]? else none

/-- `__myntohl`, and `ntohl` for an `int`. -/
def myntohl (f : List UInt8) (p : Int) : Option Int := do
  let b0 ← byteAt f p
  let b1 ← byteAt f (p + 1)
  let b2 ← byteAt f (p + 2)
  let b3 ← byteAt f (p + 3)
  some (conv 32 (b0.toNat * 2 ^ 24 + b1.toNat * 2 ^ 16 + b2.toNat * 2 ^ 8 + b3.toNat))

/-- What `__tzfile_map` returns and stores: `tzname[0]` is an offset in the file, and `none` where
`tzname` and `timezone` stay as they are. -/
structure TzMap where
  value : Int
  isdst : Nat
  daylight : Bool
  tzname : Option Int
  timezone : Option Int
  deriving DecidableEq

/-- The time as it is. -/
def unmapped (timecnt t : Int) : TzMap := ⟨t, 0, 0 < timecnt, none, none⟩

/-- The transition `i` is the first one that is not before `t`. -/
def mapForward (f : List UInt8) (timecnt typecnt t i : Int) : Option TzMap := do
  let tmp := 44 + (← sval 32 (timecnt * 4))
  let j ← byteAt f (tmp + i - 1)
  let tmp := tmp + timecnt
  let tz := 44 + (← sval 32 ((← sval 32 (timecnt * 5)) + (← sval 32 (typecnt * 6))))
  let tmp := tmp + j.toNat * 6
  let isdst ← byteAt f (tmp + 4)
  let abbrind ← byteAt f (tmp + 5)
  let timezone ← myntohl f tmp
  let value ← sval 64 (t + timezone)
  some ⟨value, isdst.toNat, 0 < timecnt, some (tz + abbrind.toNat), some timezone⟩

/-- `for (i=0; i<tzh_timecnt; ++i)`, with the turns that are left. -/
def forwardLoop (f : List UInt8) (timecnt typecnt t : Int) : Nat → Int → Option TzMap
  | 0, _ => some (unmapped timecnt t)
  | n + 1, i => do
    let time ← myntohl f (44 + (← sval 32 (i * 4)))
    if t ≤ time then mapForward f timecnt typecnt t i
    else forwardLoop f timecnt typecnt t n (i + 1)

/-- `for (i=1; i<tzh_timecnt-1; ++i)`, the reverse map. -/
def reverseLoop (f : List UInt8) (timecnt t : Int) : Nat → Int → Int → Option TzMap
  | 0, _, _ => some (unmapped timecnt t)
  | n + 1, i, lastval => do
    let x := 44 + (← sval 32 (timecnt * 4))
    let j ← byteAt f (x + i - 1)
    let nexttz ← myntohl f (x + timecnt + j.toNat * 6)
    if lastval ≤ t then
      let k := (← myntohl f (44 + (← sval 32 (i * 4)))) - nexttz
      if t < k then some { unmapped timecnt t with value := ← sval 64 (t - nexttz) }
      else reverseLoop f timecnt t n (i + 1) k
    else reverseLoop f timecnt t n (i + 1) 0

/-- `__tzfile_map` with `tzfile` mapped. -/
def tzfileMap (f : List UInt8) (t : Int) (forward : Bool) : Option TzMap := do
  let timecnt ← myntohl f 32
  let typecnt ← myntohl f 36
  if forward then forwardLoop f timecnt typecnt t timecnt.toNat 0
  else reverseLoop f timecnt t (timecnt - 2).toNat 1 0

/-! ## Well-formed files -/

/-- A four-byte integer. -/
def be32 (v : Int) : List UInt8 :=
  let n := (v % 2 ^ 32).toNat
  [UInt8.ofNat (n / 2 ^ 24), UInt8.ofNat (n / 2 ^ 16), UInt8.ofNat (n / 2 ^ 8), UInt8.ofNat n]

/-- A local time type. -/
structure TtInfo where
  utoff : Int
  isdst : Bool
  abbrind : UInt8
  fits : Fits 32 utoff

def TtInfo.bytes (i : TtInfo) : List UInt8 := be32 i.utoff ++ [if i.isdst then 1 else 0, i.abbrind]

/-- A version 1 file. The counts of the file are the lengths of the lists; `tzlen` is an `int`. -/
structure Zone where
  reserved : List UInt8
  times : List Int
  types : List UInt8
  infos : List TtInfo
  chars : List UInt8
  leaps : List (Int × Int)
  isstd : List UInt8
  isgmt : List UInt8
  reserved_length : reserved.length = 16
  times_fits : ∀ x ∈ times, Fits 32 x
  increasing : times.Pairwise (· < ·)
  types_length : types.length = times.length
  types_lt : ∀ j ∈ types, j.toNat < infos.length
  infos_ne : infos ≠ []
  abbrind_lt : ∀ i ∈ infos, i.abbrind.toNat < chars.length
  isstd_length : isstd.length = 0 ∨ isstd.length = infos.length
  isgmt_length : isgmt.length = 0 ∨ isgmt.length = infos.length
  small : 44 + 5 * times.length + 6 * infos.length + chars.length + 8 * leaps.length +
    isstd.length + isgmt.length < 2 ^ 31

/-- The header: the magic number and the counts. -/
def Zone.header (z : Zone) : List UInt8 :=
  [0x54, 0x5a, 0x69, 0x66] ++ z.reserved ++ be32 z.isgmt.length ++ be32 z.isstd.length ++
    be32 z.leaps.length ++ be32 z.times.length ++ be32 z.infos.length ++ be32 z.chars.length

/-- The part behind the tables that the code reads. -/
def Zone.rest (z : Zone) : List UInt8 :=
  z.chars ++ z.leaps.flatMap (fun l => be32 l.1 ++ be32 l.2) ++ z.isstd ++ z.isgmt

def Zone.bytes (z : Zone) : List UInt8 :=
  z.header ++ (z.times.flatMap be32 ++ (z.types ++ (z.infos.flatMap TtInfo.bytes ++ z.rest)))

/-! ## Reads -/

variable {f : List UInt8} {z : Zone} {t : Int} {i k n : Nat}

theorem byteAt_natCast (f : List UInt8) (p : Nat) : byteAt f p = f[p]? := by
  unfold byteAt
  rw [if_pos (by omega), Int.toNat_natCast]

@[simp] theorem length_be32 (v : Int) : (be32 v).length = 4 := rfl

@[simp] theorem length_ttInfo (i : TtInfo) : i.bytes.length = 6 := rfl

@[simp] theorem length_header (z : Zone) : z.header.length = 44 := by
  simp [Zone.header, z.reserved_length]

theorem byteAt_of_drop {p : Nat} {b : UInt8} {u : List UInt8} (h : f.drop p = b :: u) :
    byteAt f p = some b := by
  rw [byteAt_natCast, ← Nat.add_zero p, ← List.getElem?_drop, h]
  rfl

theorem drop_succ_of_drop {p : Nat} {b : UInt8} {u : List UInt8} (h : f.drop p = b :: u) :
    f.drop (p + 1) = u := by
  rw [← List.drop_drop, h]
  rfl

/-- The bytes of an integer give it back. -/
theorem myntohl_of_drop {v : Int} {p : Nat} {u : List UInt8} (hv : Fits 32 v)
    (h : f.drop p = be32 v ++ u) : myntohl f p = some v := by
  have h1 := drop_succ_of_drop h
  have h2 := drop_succ_of_drop h1
  have h3 := drop_succ_of_drop h2
  unfold myntohl
  rw [byteAt_of_drop h, show (p : Int) + 1 = (p + 1 : Nat) by omega, byteAt_of_drop h1,
    show (p : Int) + 2 = (p + 1 + 1 : Nat) by omega, byteAt_of_drop h2,
    show (p : Int) + 3 = (p + 1 + 1 + 1 : Nat) by omega, byteAt_of_drop h3]
  simp only [Option.bind_eq_bind, Option.bind_some, UInt8.toNat_ofNat']
  have hv32 := fits32.mp hv
  have hn : ((v % 2 ^ 32).toNat : Int) = v % 2 ^ 32 := Int.toNat_of_nonneg (by omega)
  generalize (v % 2 ^ 32).toNat = n at hn
  have hsum : ((n / 2 ^ 24 % 2 ^ 8 : Nat) : Int) * 2 ^ 24 + (n / 2 ^ 16 % 2 ^ 8 : Nat) * 2 ^ 16 +
      (n / 2 ^ 8 % 2 ^ 8 : Nat) * 2 ^ 8 + (n % 2 ^ 8 : Nat) = n := by omega
  rw [hsum, hn]
  unfold conv
  rw [show (2 : Int) ^ 32 = ((2 ^ 32 : Nat) : Int) from rfl, Int.emod_bmod]
  exact congrArg some (conv_of_fits (by decide) hv)

/-- A list of chunks of one length. -/
theorem drop_flatMap {α : Type} {g : α → List UInt8} {w : Nat} (hw : ∀ a, (g a).length = w)
    (l : List α) (i : Nat) : (l.flatMap g).drop (w * i) = (l.drop i).flatMap g := by
  induction i generalizing l with
  | zero => rfl
  | succ i ih =>
    cases l with
    | nil => simp
    | cons a l =>
      rw [List.flatMap_cons, Nat.mul_succ, Nat.add_comm, ← List.drop_drop, ← hw a,
        List.drop_left, hw a, ih]
      rfl

theorem length_flatMap_of {α : Type} {g : α → List UInt8} {w : Nat} (hw : ∀ a, (g a).length = w)
    (l : List α) : (l.flatMap g).length = w * l.length := by
  rw [List.length_flatMap, List.map_congr_left (fun a _ => hw a), List.map_const',
    List.sum_replicate, smul_eq_mul, Nat.mul_comm]

/-- The file from the tables on. -/
theorem drop_header (z : Zone) (p : Nat) : z.bytes.drop (44 + p) =
    (z.times.flatMap be32 ++ (z.types ++ (z.infos.flatMap TtInfo.bytes ++ z.rest))).drop p := by
  rw [Zone.bytes, ← List.drop_drop, ← length_header z, List.drop_left]

theorem drop_times (z : Zone) (p : Nat) : z.bytes.drop (44 + 4 * z.times.length + p) =
    (z.types ++ (z.infos.flatMap TtInfo.bytes ++ z.rest)).drop p := by
  have hlen := length_flatMap_of (g := be32) length_be32 z.times
  rw [Nat.add_assoc, drop_header, ← List.drop_drop, ← hlen, List.drop_left]

theorem drop_types (z : Zone) (p : Nat) : z.bytes.drop (44 + 5 * z.times.length + p) =
    (z.infos.flatMap TtInfo.bytes ++ z.rest).drop p := by
  rw [show 44 + 5 * z.times.length + p = 44 + 4 * z.times.length + (z.types.length + p) by
    rw [z.types_length]; omega, drop_times, ← List.drop_drop, List.drop_left]

/-- The counts of the header. -/
theorem drop_counts (z : Zone) : ∃ tail, z.bytes.drop 32 =
    be32 z.times.length ++ (be32 z.infos.length ++ tail) := by
  refine ⟨be32 z.chars.length ++ (z.times.flatMap be32 ++ (z.types ++
    (z.infos.flatMap TtInfo.bytes ++ z.rest))), ?_⟩
  have hlen : ([0x54, 0x5a, 0x69, 0x66] ++ z.reserved ++ be32 z.isgmt.length ++
      be32 z.isstd.length ++ be32 z.leaps.length).length = 32 := by
    simp [z.reserved_length]
  rw [Zone.bytes, Zone.header, List.append_assoc, List.append_assoc, List.append_assoc,
    List.drop_left' hlen]

theorem timecnt_eq (z : Zone) : myntohl z.bytes 32 = some (z.times.length : Int) := by
  have hsmall := z.small
  obtain ⟨tail, h⟩ := drop_counts z
  exact myntohl_of_drop (p := 32) (fits32.mpr ⟨by omega, by omega⟩) h

theorem typecnt_eq (z : Zone) : myntohl z.bytes 36 = some (z.infos.length : Int) := by
  have hsmall := z.small
  obtain ⟨tail, h⟩ := drop_counts z
  refine myntohl_of_drop (p := 36) (u := tail) (fits32.mpr ⟨by omega, by omega⟩) ?_
  rw [show 36 = 32 + 4 from rfl, ← List.drop_drop, h]
  rfl

/-- A transition time. -/
theorem time_eq {x : Int} (h : z.times[i]? = some x) :
    myntohl z.bytes ((44 + 4 * i : Nat) : Int) = some x := by
  obtain ⟨hi, hx⟩ := List.getElem?_eq_some_iff.mp h
  refine myntohl_of_drop (z.times_fits x (List.mem_of_getElem? h))
    (u := (z.times.drop (i + 1)).flatMap be32 ++
      (z.types ++ (z.infos.flatMap TtInfo.bytes ++ z.rest))) ?_
  rw [drop_header, List.drop_append_of_le_length (by
    rw [length_flatMap_of length_be32]; omega), drop_flatMap length_be32,
    List.drop_eq_getElem_cons hi, hx, List.flatMap_cons, List.append_assoc]

/-- The type of a transition. -/
theorem type_eq {j : UInt8} (h : z.types[i]? = some j) :
    byteAt z.bytes ((44 + 4 * z.times.length + i : Nat) : Int) = some j := by
  obtain ⟨hi, hj⟩ := List.getElem?_eq_some_iff.mp h
  refine byteAt_of_drop (u := z.types.drop (i + 1) ++ (z.infos.flatMap TtInfo.bytes ++ z.rest)) ?_
  rw [drop_times, List.drop_append_of_le_length (by omega), List.drop_eq_getElem_cons hi, hj]
  rfl

/-- A local time type of the file. -/
theorem drop_info {l : TtInfo} (h : z.infos[i]? = some l) :
    ∃ tail, z.bytes.drop (44 + 5 * z.times.length + 6 * i) = l.bytes ++ tail := by
  obtain ⟨hi, hl⟩ := List.getElem?_eq_some_iff.mp h
  refine ⟨(z.infos.drop (i + 1)).flatMap TtInfo.bytes ++ z.rest, ?_⟩
  rw [drop_types, List.drop_append_of_le_length (by
    rw [length_flatMap_of length_ttInfo]; omega), drop_flatMap length_ttInfo,
    List.drop_eq_getElem_cons hi, hl, List.flatMap_cons, List.append_assoc]

end Dietlibc.Time
