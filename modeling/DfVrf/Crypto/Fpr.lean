import Mathlib.Algebra.Order.Archimedean.Real.Basic
import Mathlib.Analysis.Real.Sqrt
import DfVrf.Lib.Rounding
import DfVrf.Lib.SignedWords

/-!
# Floating-point numbers in integers (`fpr.h`, `fpr.c`)

The configuration emulates the numbers of the format binary64 with integers of 64 bits, so that all platforms compute
the same signatures.
-/

namespace DfVrf.Crypto

open Rounding SignedWords

/-! ### The code -/

/-- Right-shift by a count in `0..63`. -/
def fprUrsh (x : UInt64) (n : Int32) : UInt64 :=
  let x := x ^^^ ((x ^^^ (x >>> 32)) &&& -(n >>> 5).toInt64.toUInt64)
  x >>> (n &&& 31).toInt64.toUInt64

/-- Arithmetic right-shift by a count in `0..63`. -/
def fprIrsh (x : Int64) (n : Int32) : Int64 :=
  let x := x ^^^ ((x ^^^ (x >>> 32)) &&& -(n >>> 5).toInt64)
  x >>> (n &&& 31).toInt64

/-- Left-shift by a count in `0..63`. -/
def fprUlsh (x : UInt64) (n : Int32) : UInt64 :=
  let x := x ^^^ ((x ^^^ (x <<< 32)) &&& -(n >>> 5).toInt64.toUInt64)
  x <<< (n &&& 31).toInt64.toUInt64

/-- `FPR`: the encoding of a sign, an exponent and a mantissa of 55 bits, of which the lowest is sticky. -/
def FPR (s e : Int32) (m : UInt64) : UInt64 :=
  let e := e + 1076
  let t := e.toUInt32 >>> 31
  let m := m &&& (t.toUInt64 - 1)
  let t := (m >>> 54).toUInt32
  let e := e &&& -t.toInt32
  let x := ((s.toInt64.toUInt64 <<< 63) ||| (m >>> 2)) + (e.toUInt32.toUInt64 <<< 52)
  let f := m.toUInt32 &&& 7
  x + ((0xC8 >>> f) &&& 1).toUInt64

/-- A step of the macro `FPR_NORM64` except the last one: a shift by `2 ^ j` unless a bit above is set. -/
def fprNorm64Step (j : UInt32) (st : UInt64 × Int32) : UInt64 × Int32 :=
  let k := ((1 : UInt32) <<< j).toUInt64
  let nt := (st.1 >>> (64 - k)).toUInt32
  let nt := (nt ||| -nt) >>> 31
  (st.1 ^^^ ((st.1 ^^^ (st.1 <<< k)) &&& (nt.toUInt64 - 1)), st.2 + (nt <<< j).toInt32)

/-- The macro `FPR_NORM64`. -/
def fprNorm64 (m : UInt64) (e : Int32) : UInt64 × Int32 :=
  let st := fprNorm64Step 1 (fprNorm64Step 2 (fprNorm64Step 3 (fprNorm64Step 4 (fprNorm64Step 5 (m, e - 63)))))
  let nt := (st.1 >>> 63).toUInt32
  (st.1 ^^^ ((st.1 ^^^ (st.1 <<< 1)) &&& (nt.toUInt64 - 1)), st.2 + nt.toInt32)

/-- The nine lowest bits are dropped, the lowest bit that is kept is sticky. -/
def stick9 (m : UInt64) : UInt64 := (m ||| ((m.toUInt32 &&& 0x1FF) + 0x1FF).toUInt64) >>> 9

def fprScaled (i : Int64) (sc : Int32) : UInt64 :=
  let s := (i.toUInt64 >>> 63).toUInt32.toInt32
  let i := i ^^^ -s.toInt64
  let i := i + s.toInt64
  let m := i.toUInt64
  let e := 9 + sc
  let r := fprNorm64 m e
  let m := stick9 r.1
  let t := ((i ||| -i).toUInt64 >>> 63).toUInt32
  let m := m &&& -t.toUInt64
  let e := r.2 &&& -t.toInt32
  FPR s e m

def fprOf (i : Int64) : UInt64 := fprScaled i 0

/-- The operand with the larger absolute value comes first, and if both are equal, the one that is positive. -/
def addSwap (x y : UInt64) : UInt64 × UInt64 :=
  let m := ((1 : UInt64) <<< 63) - 1
  let za := (x &&& m) - (y &&& m)
  let cs := (za >>> 63).toUInt32 ||| (((1 : UInt32) - ((-za) >>> 63).toUInt32) &&& (x >>> 63).toUInt32)
  let m := (x ^^^ y) &&& -cs.toUInt64
  (x ^^^ m, y ^^^ m)

/-- The mantissa with three bits below, zero for the number zero. -/
def addMantissa (x : UInt64) (ex : Int32) : UInt64 :=
  let m := ((ex + 0x7FF) >>> 11).toUInt32.toUInt64 <<< 52
  ((x &&& (((1 : UInt64) <<< 52) - 1)) ||| m) <<< 3

/-- The mantissa of the smaller operand is shifted by `cc`, with a sticky bit, or cleared if `cc` is 60 or larger. -/
def addAlign (yu : UInt64) (cc : Int32) : UInt64 :=
  let yu := yu &&& -((cc - 60).toUInt32 >>> 31).toUInt64
  let cc := cc &&& 63
  let m := fprUlsh 1 cc - 1
  let yu := yu ||| ((yu &&& m) + m)
  fprUrsh yu cc

/-- The sum of operands in the order of `addSwap`. -/
def addOrdered (x y : UInt64) : UInt64 :=
  let ex := (x >>> 52).toUInt32.toInt32
  let sx := ex >>> 11
  let ex := ex &&& 0x7FF
  let xu := addMantissa x ex
  let ex := ex - 1078
  let ey := (y >>> 52).toUInt32.toInt32
  let sy := ey >>> 11
  let ey := ey &&& 0x7FF
  let yu := addMantissa y ey
  let ey := ey - 1078
  let yu := addAlign yu (ex - ey)
  let xu := xu + (yu - ((yu <<< 1) &&& -(sx ^^^ sy).toInt64.toUInt64))
  let r := fprNorm64 xu ex
  let xu := stick9 r.1
  let ex := r.2 + 9
  FPR sx ex xu

def fprAdd (x y : UInt64) : UInt64 :=
  let p := addSwap x y
  addOrdered p.1 p.2

def fprSub (x y : UInt64) : UInt64 := fprAdd x (y ^^^ ((1 : UInt64) <<< 63))

def fprNeg (x : UInt64) : UInt64 := x ^^^ ((1 : UInt64) <<< 63)

def fprHalf (x : UInt64) : UInt64 :=
  let x := x - ((1 : UInt64) <<< 52)
  let t := (((x >>> 52).toUInt32 &&& 0x7FF) + 1) >>> 11
  x &&& (t.toUInt64 - 1)

def fprDouble (x : UInt64) : UInt64 :=
  x + (((((x >>> 52).toUInt32 &&& 0x7FF) + 0x7FF) >>> 11).toUInt64 <<< 52)

/-- The mantissa of a nonzero number. -/
def mantissa (x : UInt64) : UInt64 := (x &&& (((1 : UInt64) <<< 52) - (1 : UInt64))) ||| ((1 : UInt64) <<< 52)

/-- The product of two mantissas in limbs of 25 bits: the limbs above the lowest two, with a sticky bit for these. -/
def mulMantissa (xu yu : UInt64) : UInt64 :=
  let x0 := xu.toUInt32 &&& 0x01FFFFFF
  let x1 := (xu >>> 25).toUInt32
  let y0 := yu.toUInt32 &&& 0x01FFFFFF
  let y1 := (yu >>> 25).toUInt32
  let w := x0.toUInt64 * y0.toUInt64
  let z0 := w.toUInt32 &&& 0x01FFFFFF
  let z1 := (w >>> 25).toUInt32
  let w := x0.toUInt64 * y1.toUInt64
  let z1 := z1 + (w.toUInt32 &&& 0x01FFFFFF)
  let z2 := (w >>> 25).toUInt32
  let w := x1.toUInt64 * y0.toUInt64
  let z1 := z1 + (w.toUInt32 &&& 0x01FFFFFF)
  let z2 := z2 + (w >>> 25).toUInt32
  let zu := x1.toUInt64 * y1.toUInt64
  let z2 := z2 + (z1 >>> 25)
  let z1 := z1 &&& 0x01FFFFFF
  let zu := zu + z2.toUInt64
  zu ||| (((z0 ||| z1) + 0x01FFFFFF) >>> 25).toUInt64

/-- A mantissa of 56 bits is shifted to 55 bits; the second component is the shift. -/
def normalize55 (z : UInt64) : UInt64 × UInt64 :=
  let zv := (z >>> 1) ||| (z &&& 1)
  let w := z >>> 55
  (z ^^^ ((z ^^^ zv) &&& -w), w)

def fprMul (x y : UInt64) : UInt64 :=
  let zw := normalize55 (mulMantissa (mantissa x) (mantissa y))
  let ex := ((x >>> 52) &&& 0x7FF).toUInt32.toInt32
  let ey := ((y >>> 52) &&& 0x7FF).toUInt32.toInt32
  let e := ex + ey - 2100 + zw.2.toUInt32.toInt32
  let s := ((x ^^^ y) >>> 63).toUInt32.toInt32
  let d := ((ex + 0x7FF) &&& (ey + 0x7FF)) >>> 11
  let zu := zw.1 &&& -d.toInt64.toUInt64
  FPR s e zu

def fprSqr (x : UInt64) : UInt64 := fprMul x x

/-- An iteration of the division: the remainder and the quotient. -/
def divStep (yu : UInt64) (st : UInt64 × UInt64) : UInt64 × UInt64 :=
  let b := ((st.1 - yu) >>> 63) - 1
  ((st.1 - (b &&& yu)) <<< 1, (st.2 ||| (b &&& 1)) <<< 1)

def fprDiv (x y : UInt64) : UInt64 :=
  let st := (List.range 55).foldl (fun st _ => divStep (mantissa y) st) (mantissa x, 0)
  let q := st.2 ||| ((st.1 ||| -st.1) >>> 63)
  let qw := normalize55 q
  let ex := ((x >>> 52) &&& 0x7FF).toUInt32.toInt32
  let ey := ((y >>> 52) &&& 0x7FF).toUInt32.toInt32
  let e := ex - ey - 55 + qw.2.toUInt32.toInt32
  let s := ((x ^^^ y) >>> 63).toUInt32.toInt32
  let d := (ex + 0x7FF) >>> 11
  let s := s &&& d
  let e := e &&& -d
  let q := qw.1 &&& -d.toInt64.toUInt64
  FPR s e q

/-- `fpr_one`. -/
def fprOne : UInt64 := 4607182418800017408

/-- The variables of the loop of `fpr_sqrt`. -/
structure SqrtState where
  xu : UInt64
  q : UInt64
  s : UInt64
  r : UInt64

/-- An iteration of the square root. -/
def sqrtStep (st : SqrtState) : SqrtState :=
  let t := st.s + st.r
  let b := ((st.xu - t) >>> 63) - 1
  ⟨(st.xu - (t &&& b)) <<< 1, st.q + (st.r &&& b), st.s + ((st.r <<< 1) &&& b), st.r >>> 1⟩

def fprSqrt (x : UInt64) : UInt64 :=
  let xu := mantissa x
  let ex := ((x >>> 52) &&& 0x7FF).toUInt32.toInt32
  let e := ex - 1023
  let xu := xu + (xu &&& -(e &&& 1).toInt64.toUInt64)
  let e := e >>> 1
  let xu := xu <<< 1
  let st := (List.range 54).foldl (fun st _ => sqrtStep st) ⟨xu, 0, 0, (1 : UInt64) <<< 53⟩
  let q := st.q <<< 1
  let q := q ||| ((st.xu ||| -st.xu) >>> 63)
  let e := e - 54
  let q := q &&& -((ex + 0x7FF) >>> 11).toInt64.toUInt64
  FPR 0 e q

/-- The absolute value as an integer of 63 bits, before the shift to the right. -/
def mantissa63 (x : UInt64) : UInt64 := ((x <<< 10) ||| ((1 : UInt64) <<< 62)) &&& (((1 : UInt64) <<< 63) - 1)

/-- The dropped bits and the lowest bit that is kept, at the top of a word; the lowest of the three is sticky. -/
def droppedBits (d : UInt64) : UInt32 :=
  let dd := d.toUInt32 ||| ((d >>> 32).toUInt32 &&& 0x1FFFFFFF)
  (d >>> 61).toUInt32 ||| ((dd ||| -dd) >>> 31)

def fprRint (x : UInt64) : Int64 :=
  let m := mantissa63 x
  let e := (1085 : Int32) - ((x >>> 52).toUInt32.toInt32 &&& 0x7FF)
  let m := m &&& -((e - 64).toUInt32 >>> 31).toUInt64
  let e := e &&& 63
  let d := fprUlsh m (63 - e)
  let f := droppedBits d
  let m := fprUrsh m e + ((0xC8 >>> f) &&& 1).toUInt64
  let s := (x >>> 63).toUInt32
  (m.toInt64 ^^^ -s.toUInt64.toInt64) + s.toUInt64.toInt64

def fprFloor (x : UInt64) : Int64 :=
  let e := (x >>> 52).toUInt32.toInt32 &&& 0x7FF
  let t := x >>> 63
  let xi := (mantissa63 x).toInt64
  let xi := (xi ^^^ -t.toInt64) + t.toInt64
  let cc := (1085 : Int32) - e
  let xi := fprIrsh xi (cc &&& 63)
  xi ^^^ ((xi ^^^ -t.toInt64) &&& -((63 - cc).toUInt32 >>> 31).toUInt64.toInt64)

def fprTrunc (x : UInt64) : Int64 :=
  let e := (x >>> 52).toUInt32.toInt32 &&& 0x7FF
  let xu := mantissa63 x
  let cc := (1085 : Int32) - e
  let xu := fprUrsh xu (cc &&& 63)
  let xu := xu &&& -((cc - 64).toUInt32 >>> 31).toUInt64
  let t := x >>> 63
  ((xu ^^^ -t) + t).toInt64

/-- A comparison as the C code computes it: the truth values as integers. -/
def fprLt (x y : UInt64) : Int32 :=
  let cc0 : Int32 := if x.toInt64 < y.toInt64 then 1 else 0
  let cc1 : Int32 := if x.toInt64 > y.toInt64 then 1 else 0
  cc0 ^^^ ((cc0 ^^^ cc1) &&& ((x &&& y) >>> 63).toUInt32.toInt32)

/-! ### The numbers -/

/-- The sign bit. -/
def signBit (x : UInt64) : ℕ := x.toNat / 2 ^ 63

/-- The biased exponent. -/
def expBits (x : UInt64) : ℕ := x.toNat / 2 ^ 52 % 2 ^ 11

/-- The mantissa without its highest bit. -/
def fracBits (x : UInt64) : ℕ := x.toNat % 2 ^ 52

/-- The numbers that the code works with: no infinities, no NaN and no subnormal numbers. -/
structure IsFpr (x : UInt64) : Prop where
  finite : expBits x < 2047
  normal : expBits x = 0 → fracBits x = 0

/-- The absolute value. -/
noncomputable def magnitude (x : UInt64) : ℝ :=
  if expBits x = 0 then 0 else (2 ^ 52 + fracBits x : ℕ) * ((2 : ℕ) : ℝ) ^ ((expBits x : ℤ) - 1075)

noncomputable def fprValue (x : UInt64) : ℝ := (-1) ^ signBit x * magnitude x

/-- The result of an operation: what is smaller than all normal numbers becomes zero. -/
noncomputable def fprRound (v : ℝ) : ℝ := if |v| < ((2 : ℕ) : ℝ) ^ (-1022 : ℤ) then 0 else roundTo 53 v

theorem magnitude_def (x : UInt64) :
    magnitude x = if expBits x = 0 then 0 else ((2 ^ 52 + fracBits x : ℕ) : ℝ) * 2 ^ ((expBits x : ℤ) - 1075) := by
  rw [magnitude, Nat.cast_ofNat]

theorem fprRound_def (v : ℝ) : fprRound v = if |v| < 2 ^ (-1022 : ℤ) then 0 else roundTo 53 v := by
  rw [fprRound, Nat.cast_ofNat]

/-- The number with this sign bit and this absolute value. -/
structure Encodes (r : UInt64) (s : ℕ) (v : ℝ) : Prop where
  isFpr : IsFpr r
  signBit_eq : signBit r = s
  magnitude_eq : magnitude r = v

theorem Encodes.value {r : UInt64} {s : ℕ} {v : ℝ} (h : Encodes r s v) : fprValue r = (-1) ^ s * v := by
  rw [fprValue, h.signBit_eq, h.magnitude_eq]

/-- The fields of an encoding. -/
theorem toNat_eq (x : UInt64) : x.toNat = signBit x * 2 ^ 63 + expBits x * 2 ^ 52 + fracBits x ∧ signBit x ≤ 1 ∧
    expBits x < 2 ^ 11 ∧ fracBits x < 2 ^ 52 := by
  have := x.toNat_lt
  unfold signBit expBits fracBits
  omega

theorem fields_eq {x : UInt64} (s e m : ℕ) (he : e < 2 ^ 11) (hm : m < 2 ^ 52)
    (h : x.toNat = s * 2 ^ 63 + e * 2 ^ 52 + m) : signBit x = s ∧ expBits x = e ∧ fracBits x = m := by
  unfold signBit expBits fracBits
  omega

/-- The encoding without the sign bit. -/
def absBits (x : UInt64) : ℕ := x.toNat % 2 ^ 63

theorem absBits_eq (x : UInt64) : absBits x = expBits x * 2 ^ 52 + fracBits x := by
  have := toNat_eq x
  unfold absBits
  omega

/-- The order of the encodings is that of the absolute values. -/
theorem magnitude_lt {x y : UInt64} (hy : IsFpr y) (h : absBits x < absBits y) : magnitude x < magnitude y := by
  rw [absBits_eq, absBits_eq] at h
  obtain ⟨-, -, -, hfx⟩ := toNat_eq x
  obtain ⟨-, -, -, hfy⟩ := toNat_eq y
  have hy0 : expBits y ≠ 0 := by
    intro h0
    have := hy.normal h0
    omega
  have hpos : (0 : ℝ) < 2 ^ ((expBits y : ℤ) - 1075) := zpow_pos two_pos _
  rw [magnitude_def, magnitude_def, if_neg hy0]
  by_cases hx0 : expBits x = 0
  · rw [if_pos hx0]
    positivity
  · rw [if_neg hx0]
    by_cases he : expBits x = expBits y
    · rw [he] at h ⊢
      refine mul_lt_mul_of_pos_right ?_ hpos
      exact_mod_cast (by omega : 2 ^ 52 + fracBits x < 2 ^ 52 + fracBits y)
    · have hlt : expBits x + 1 ≤ expBits y := by omega
      calc ((2 ^ 52 + fracBits x : ℕ) : ℝ) * 2 ^ ((expBits x : ℤ) - 1075)
          < (2 ^ 53 : ℕ) * 2 ^ ((expBits x : ℤ) - 1075) := by
            refine mul_lt_mul_of_pos_right ?_ (zpow_pos two_pos _)
            exact_mod_cast (by omega : 2 ^ 52 + fracBits x < 2 ^ 53)
        _ = (2 ^ 52 : ℕ) * 2 ^ (((expBits x + 1 : ℕ) : ℤ) - 1075) := by
          rw [show ((expBits x + 1 : ℕ) : ℤ) - 1075 = 1 + ((expBits x : ℤ) - 1075) by push_cast; ring,
            zpow_one_add₀ two_ne_zero]
          push_cast
          ring
        _ ≤ (2 ^ 52 : ℕ) * 2 ^ ((expBits y : ℤ) - 1075) := by
          refine mul_le_mul_of_nonneg_left (zpow_le_zpow_right₀ one_le_two ?_) (by positivity)
          omega
        _ ≤ (2 ^ 52 + fracBits y : ℕ) * 2 ^ ((expBits y : ℤ) - 1075) := by
          refine mul_le_mul_of_nonneg_right ?_ hpos.le
          exact_mod_cast Nat.le_add_right _ _

theorem magnitude_eq_of_absBits {x y : UInt64} (h : absBits x = absBits y) : magnitude x = magnitude y := by
  rw [absBits_eq, absBits_eq] at h
  have hx := toNat_eq x
  have hy := toNat_eq y
  have he : expBits x = expBits y := by omega
  have hf : fracBits x = fracBits y := by omega
  rw [magnitude_def, magnitude_def, he, hf]

theorem magnitude_nonneg (x : UInt64) : 0 ≤ magnitude x := by
  rw [magnitude_def]
  split
  · exact le_rfl
  · exact mul_nonneg (Nat.cast_nonneg _) (zpow_pos two_pos _).le

/-! ### The encoding -/

/-- The bit of the table `0xC8` that the low bits select. -/
theorem table_bit {f : UInt32} (hf : f.toNat < 8) :
    ((0xC8 >>> f) &&& 1 : UInt32) = if f.toNat = 3 ∨ f.toNat = 6 ∨ f.toNat = 7 then 1 else 0 := by
  have h : ∀ k < 8, ((0xC8 >>> UInt32.ofNat k) &&& 1 : UInt32) = if k = 3 ∨ k = 6 ∨ k = 7 then 1 else 0 := by decide
  have := h f.toNat hf
  rwa [UInt32.ofNat_toNat] at this

private theorem toNat_sign {s : Int32} (hs : s = 0 ∨ s = 1) :
    (s.toInt64.toUInt64 <<< 63).toNat = s.toInt.toNat * 2 ^ 63 ∧ s.toInt.toNat ≤ 1 := by
  rcases hs with rfl | rfl <;> decide

private theorem toNat_FPR {s e : Int32} {m : UInt64} (hs : s = 0 ∨ s = 1) (h1 : 2 ^ 54 ≤ m.toNat)
    (h2 : m.toNat < 2 ^ 55) (he1 : -1076 ≤ e.toInt) (he2 : e.toInt ≤ 969) : (FPR s e m).toNat =
      s.toInt.toNat * 2 ^ 63 + (e.toInt + 1076).toNat * 2 ^ 52 +
        (m.toNat / 4 + if m.toNat % 8 = 3 ∨ m.toNat % 8 = 6 ∨ m.toNat % 8 = 7 then 1 else 0) := by
  have h1076 : (1076 : Int32).toInt = 1076 := rfl
  have he : (e + 1076).toInt = e.toInt + 1076 := by
    rw [toInt_add_of_le] <;> rw [h1076] <;> omega
  have ht : (e + 1076).toUInt32 >>> 31 = 0 := by
    rw [toUInt32_shiftRight_31, if_neg (by omega)]
  have hm54 : (m >>> 54).toUInt32 = 1 := by
    apply UInt32.toNat_inj.1
    rw [UInt64.toNat_toUInt32, UInt64.toNat_shiftRight, Nat.shiftRight_eq_div_pow,
      show (54 : UInt64).toNat % 64 = 54 from rfl, show (1 : UInt32).toNat = 1 from rfl]
    omega
  have hf : (m.toUInt32 &&& 7).toNat = m.toNat % 8 := by
    rw [UInt32.toNat_and, UInt64.toNat_toUInt32, show (7 : UInt32).toNat = 2 ^ 3 - 1 from rfl,
      Nat.and_two_pow_sub_one_eq_mod]
    omega
  obtain ⟨hs1, hs2⟩ := toNat_sign hs
  have hexp := toNat_toUInt32_of_nonneg (e := e + 1076) (by omega)
  unfold FPR
  simp only [ht, show (0 : UInt32).toUInt64 - 1 = -1 from rfl, UInt64.and_neg_one, hm54,
    show -(1 : UInt32).toInt32 = -1 from rfl, Int32.and_neg_one]
  rw [table_bit (by rw [hf]; exact Nat.mod_lt _ (by norm_num)), hf]
  have hor : (s.toInt64.toUInt64 <<< 63 ||| m >>> 2).toNat = s.toInt.toNat * 2 ^ 63 + m.toNat / 4 := by
    rw [UInt64.toNat_or, hs1, UInt64.toNat_shiftRight, Nat.shiftRight_eq_div_pow,
      show (2 : UInt64).toNat % 64 = 2 from rfl, mul_comm, ← Nat.two_pow_add_eq_or_of_lt (by omega)]
  have hexp' : ((e + 1076).toUInt32.toUInt64 <<< 52).toNat = (e.toInt + 1076).toNat * 2 ^ 52 := by
    rw [UInt64.toNat_shiftLeft, UInt32.toNat_toUInt64, Nat.shiftLeft_eq, show (52 : UInt64).toNat % 64 = 52 from rfl]
    omega
  rw [UInt64.toNat_add, UInt64.toNat_add, hor, hexp']
  have hbit : (if m.toNat % 8 = 3 ∨ m.toNat % 8 = 6 ∨ m.toNat % 8 = 7 then (1 : UInt32) else 0).toUInt64.toNat =
      if m.toNat % 8 = 3 ∨ m.toNat % 8 = 6 ∨ m.toNat % 8 = 7 then 1 else 0 := by
    split <;> rfl
  rw [hbit]
  split <;> omega

/-- An integer of 53 bits, or the next power of two, with its exponent. -/
private theorem encodes_of_toNat {r : UInt64} {s E R : ℕ} (h1 : 2 ^ 52 ≤ R) (h2 : R ≤ 2 ^ 53)
    (hE : R < 2 ^ 53 → E ≤ 2045) (hE' : R = 2 ^ 53 → E ≤ 2044) (h : r.toNat = s * 2 ^ 63 + E * 2 ^ 52 + R) :
    Encodes r s (R * 2 ^ ((E : ℤ) - 1074)) := by
  by_cases hR : R < 2 ^ 53
  · obtain ⟨m, rfl⟩ : ∃ m, R = 2 ^ 52 + m := ⟨R - 2 ^ 52, by omega⟩
    have hE := hE hR
    have hr : r.toNat = s * 2 ^ 63 + (E + 1) * 2 ^ 52 + m := by rw [h]; ring
    obtain ⟨g1, g2, g3⟩ := fields_eq s (E + 1) m (by omega) (by omega) hr
    refine ⟨⟨by omega, by omega⟩, g1, ?_⟩
    rw [magnitude_def, g2, g3, if_neg (by omega), show ((E + 1 : ℕ) : ℤ) - 1075 = E - 1074 by push_cast; ring]
  · have hR : R = 2 ^ 53 := by omega
    have hE := hE' hR
    have hr : r.toNat = s * 2 ^ 63 + (E + 2) * 2 ^ 52 + 0 := by rw [h, hR]; ring
    obtain ⟨g1, g2, g3⟩ := fields_eq s (E + 2) 0 (by omega) (by norm_num) hr
    refine ⟨⟨by omega, fun _ => g3⟩, g1, ?_⟩
    rw [magnitude_def, g2, g3, if_neg (by omega), hR]
    push_cast
    rw [show ((E : ℤ) + 2 - 1075) = (E - 1074) + 1 by ring, zpow_add_one₀ two_ne_zero]
    ring

private theorem encodes_zero {r : UInt64} {s : ℕ} (h : r.toNat = s * 2 ^ 63) : Encodes r s 0 := by
  have hr : r.toNat = s * 2 ^ 63 + 0 * 2 ^ 52 + 0 := by rw [h]; ring
  obtain ⟨g1, g2, g3⟩ := fields_eq s 0 0 (by norm_num) (by norm_num) hr
  refine ⟨⟨by omega, fun _ => g3⟩, g1, ?_⟩
  rw [magnitude_def, if_pos g2]

theorem FPR_of_masked {s e : Int32} {m : UInt64} (hs : s = 0 ∨ s = 1) (h : m = 0 ∨ e.toInt < -1076) :
    Encodes (FPR s e m) s.toInt.toNat 0 := by
  refine encodes_zero ?_
  have hm : m &&& (((e + 1076).toUInt32 >>> 31).toUInt64 - 1) = 0 := by
    rcases h with rfl | h
    · exact UInt64.zero_and
    · have h1076 : (1076 : Int32).toInt = 1076 := rfl
      have hle := e.le_toInt
      have he : (e + 1076).toInt = e.toInt + 1076 := by
        rw [toInt_add_of_le] <;> rw [h1076] <;> omega
      rw [toUInt32_shiftRight_31, if_pos (by omega)]
      exact UInt64.and_zero
  unfold FPR
  simp only [hm]
  rw [show -((0 : UInt64) >>> 54).toUInt32.toInt32 = 0 from rfl, Int32.and_zero,
    show (0 : Int32).toUInt32.toUInt64 <<< 52 = 0 from rfl, show (0 : UInt64) >>> 2 = 0 from rfl, UInt64.or_zero,
    UInt64.add_zero, show ((0xC8 >>> ((0 : UInt64).toUInt32 &&& 7)) &&& 1 : UInt32).toUInt64 = 0 from rfl,
      UInt64.add_zero]
  exact (toNat_sign hs).1

/-- The encoding rounds to nearest even, if the result is not too large. -/
theorem FPR_spec {s e : Int32} {m : UInt64} {v : ℝ} (hs : s = 0 ∨ s = 1) (h : IsSticky v (m.toNat : ℤ))
    (h1 : 2 ^ 54 ≤ m.toNat) (h2 : m.toNat < 2 ^ 55) (hfit : fprRound (v * 2 ^ e.toInt) < 2 ^ (1024 : ℤ)) :
    Encodes (FPR s e m) s.toInt.toNat (fprRound (v * 2 ^ e.toInt)) := by
  have hv1 := (h.ge_iff ((even_two (α := ℤ)).pow_of_ne_zero (show 54 ≠ 0 by norm_num))).2 (by exact_mod_cast h1)
  have hv2 := (h.lt_iff ((even_two (α := ℤ)).pow_of_ne_zero (show 55 ≠ 0 by norm_num))).2 (by exact_mod_cast h2)
  rw [Int.cast_pow, Int.cast_ofNat] at hv1 hv2
  have hpos : (0 : ℝ) < 2 ^ e.toInt := zpow_pos two_pos _
  have habs : |v * 2 ^ e.toInt| = v * 2 ^ e.toInt :=
    abs_of_pos (mul_pos ((by positivity : (0 : ℝ) < 2 ^ 54).trans_le hv1) hpos)
  by_cases he : e.toInt < -1076
  · have hsmall : |v * 2 ^ e.toInt| < 2 ^ (-1022 : ℤ) := by
      rw [habs]
      calc v * 2 ^ e.toInt < 2 ^ 55 * 2 ^ e.toInt := mul_lt_mul_of_pos_right hv2 hpos
        _ = 2 ^ (55 + e.toInt) := by rw [zpow_add₀ two_ne_zero]; rfl
        _ ≤ 2 ^ (-1022 : ℤ) := zpow_le_zpow_right₀ one_le_two (by omega)
    rw [fprRound_def, if_pos hsmall]
    exact FPR_of_masked hs (.inr he)
  · have hlarge : ¬ |v * 2 ^ e.toInt| < 2 ^ (-1022 : ℤ) := by
      rw [habs, not_lt]
      calc (2 : ℝ) ^ (-1022 : ℤ) ≤ 2 ^ (54 + e.toInt) := zpow_le_zpow_right₀ one_le_two (by omega)
        _ = 2 ^ 54 * 2 ^ e.toInt := by rw [zpow_add₀ two_ne_zero]; rfl
        _ ≤ v * 2 ^ e.toInt := mul_le_mul_of_nonneg_right hv1 hpos.le
    rw [fprRound_def, if_neg hlarge, roundTo_of_isSticky h h1 h2, roundEven_div_four] at hfit ⊢
    generalize hR : (m.toNat / 4 + if m.toNat % 8 = 3 ∨ m.toNat % 8 = 6 ∨ m.toNat % 8 = 7 then 1 else 0) = R at hfit ⊢
    have hR1 : 2 ^ 52 ≤ R := by omega
    have hR2 : R ≤ 2 ^ 53 := by
      split at hR <;> omega
    rw [Int.cast_natCast] at hfit ⊢
    -- the exponent is bounded by the result
    have hbound : ∀ k : ℕ, 2 ^ k ≤ R → (k : ℤ) + (e.toInt + 2) < 1024 := by
      intro k hk
      rw [← zpow_lt_zpow_iff_right₀ (one_lt_two (α := ℝ)), zpow_add₀ two_ne_zero, zpow_natCast]
      refine lt_of_le_of_lt (mul_le_mul_of_nonneg_right ?_ (zpow_pos two_pos _).le) hfit
      exact_mod_cast hk
    have hb := hbound 52 hR1
    have hnat := toNat_FPR (e := e) hs h1 h2 (by omega) (by omega)
    rw [hR] at hnat
    have henc := encodes_of_toNat hR1 hR2 (by omega) (fun h => by
      have := hbound 53 h.ge
      omega) hnat
    rwa [Int.toNat_of_nonneg (by omega), show e.toInt + 1076 - 1074 = e.toInt + 2 by ring] at henc

/-! ### Normalization -/

/-- What the steps of the macro `FPR_NORM64` do: a shift by `s`, and the exponent. -/
def NormStep (k : ℕ) (st st' : UInt64 × Int32) : Prop :=
  ∃ s ≤ k, st'.1.toNat = st.1.toNat * 2 ^ s ∧ st'.2.toInt = st.2.toInt + (k - s : ℕ)

theorem fprNorm64Step_spec {j : UInt32} {k : ℕ} (hk : k ≤ 32) (h0 : 0 < k) (hj : 1 <<< j.toNat = k) (hj5 : j.toNat < 32)
    {st : UInt64 × Int32} (he : |st.2.toInt| ≤ 2 ^ 20) (h : 2 ^ (64 - 2 * k) ≤ st.1.toNat) :
    NormStep k st (fprNorm64Step j st) ∧ 2 ^ (64 - k) ≤ (fprNorm64Step j st).1.toNat := by
  have hkj : ((1 : UInt32) <<< j).toUInt64.toNat = k := by
    rw [UInt32.toNat_toUInt64, UInt32.toNat_shiftLeft, Nat.mod_eq_of_lt hj5, UInt32.toNat_one, hj]
    omega
  generalize hK : ((1 : UInt32) <<< j).toUInt64 = K at hkj
  have h64 : (64 - K).toNat = 64 - k := by
    rw [UInt64.toNat_sub_of_le _ _ (by rw [UInt64.le_iff_toNat_le, hkj]; exact hk.trans (by decide)), hkj]
    rfl
  have hm := st.1.toNat_lt
  have hhigh : (st.1 >>> (64 - K)).toUInt32.toNat = st.1.toNat / 2 ^ (64 - k) := by
    rw [UInt64.toNat_toUInt32, UInt64.toNat_shiftRight, h64, Nat.shiftRight_eq_div_pow,
      Nat.mod_eq_of_lt (show 64 - k < 64 by omega)]
    refine Nat.mod_eq_of_lt (Nat.div_lt_of_lt_mul (hm.trans_le ?_))
    rw [← pow_add]
    exact Nat.pow_le_pow_right (by norm_num) (by omega)
  unfold fprNorm64Step
  simp only [hK, or_neg_shiftRight_31]
  by_cases hz : (st.1 >>> (64 - K)).toUInt32 = 0
  · rw [if_pos hz, show (0 : UInt32).toUInt64 - 1 = -1 from rfl, xor_and_neg_one]
    rw [hz, UInt32.toNat_zero] at hhigh
    have hlt : st.1.toNat < 2 ^ (64 - k) := by
      rcases Nat.div_eq_zero_iff.1 hhigh.symm with hc | hc
      · exact absurd hc (by positivity)
      · exact hc
    have hshift : (st.1 <<< K).toNat = st.1.toNat * 2 ^ k := by
      rw [UInt64.toNat_shiftLeft, hkj, Nat.mod_eq_of_lt (show k < 64 by omega), Nat.shiftLeft_eq]
      refine Nat.mod_eq_of_lt ?_
      calc st.1.toNat * 2 ^ k < 2 ^ (64 - k) * 2 ^ k := Nat.mul_lt_mul_of_pos_right hlt (by positivity)
        _ = 2 ^ 64 := by rw [← pow_add]; congr 1; omega
    refine ⟨⟨k, le_rfl, hshift, ?_⟩, ?_⟩
    · rw [Nat.sub_self, show (0 : UInt32) <<< j = 0 from UInt32.zero_shiftLeft]
      rw [Nat.cast_zero, add_zero]
      exact congrArg Int32.toInt (Int32.add_zero _)
    · rw [hshift]
      calc 2 ^ (64 - k) = 2 ^ (64 - 2 * k) * 2 ^ k := by rw [← pow_add]; congr 1; omega
        _ ≤ st.1.toNat * 2 ^ k := Nat.mul_le_mul_right _ h
  · rw [if_neg hz, show (1 : UInt32).toUInt64 - 1 = 0 from rfl, UInt64.and_zero, UInt64.xor_zero]
    refine ⟨⟨0, Nat.zero_le _, by rw [pow_zero, mul_one], ?_⟩, ?_⟩
    · have hone : ((1 : UInt32) <<< j).toInt32 = Int32.ofNat k := by
        rw [← hkj, ← hK, UInt32.toNat_toUInt64]
        exact congrArg UInt32.toInt32 UInt32.ofNat_toNat.symm
      have hk' : (Int32.ofNat k).toInt = k := Int32.toInt_ofNat_of_lt (by omega)
      rw [abs_le] at he
      rw [Nat.sub_zero, hone, toInt_add_of_le (by omega) (by omega), hk']
    · by_contra hc
      refine hz (UInt32.toNat_inj.1 ?_)
      rw [hhigh, UInt32.toNat_zero]
      exact Nat.div_eq_of_lt (not_le.1 hc)

theorem fprNorm64Last_spec {st : UInt64 × Int32} (he : |st.2.toInt| ≤ 2 ^ 20) (h : 2 ^ 62 ≤ st.1.toNat) :
    NormStep 1 st (st.1 ^^^ ((st.1 ^^^ (st.1 <<< 1)) &&& ((st.1 >>> 63).toUInt32.toUInt64 - 1)),
      st.2 + (st.1 >>> 63).toUInt32.toInt32) ∧
      2 ^ 63 ≤ (st.1 ^^^ ((st.1 ^^^ (st.1 <<< 1)) &&& ((st.1 >>> 63).toUInt32.toUInt64 - 1))).toNat := by
  have hm := st.1.toNat_lt
  have hhigh : (st.1 >>> 63).toUInt32.toNat = st.1.toNat / 2 ^ 63 := by
    rw [UInt64.toNat_toUInt32, UInt64.toNat_shiftRight, Nat.shiftRight_eq_div_pow,
      show (63 : UInt64).toNat % 64 = 63 from rfl]
    omega
  by_cases hlt : st.1.toNat < 2 ^ 63
  · have hz : (st.1 >>> 63).toUInt32 = 0 := by
      apply UInt32.toNat_inj.1
      rw [hhigh, UInt32.toNat_zero]
      omega
    have hshift : (st.1 <<< 1).toNat = st.1.toNat * 2 ^ 1 := by
      rw [UInt64.toNat_shiftLeft, show (1 : UInt64).toNat % 64 = 1 from rfl, Nat.shiftLeft_eq]
      omega
    rw [hz, show (0 : UInt32).toUInt64 - 1 = -1 from rfl, xor_and_neg_one]
    refine ⟨⟨1, le_rfl, hshift, ?_⟩, by omega⟩
    rw [Nat.sub_self, Nat.cast_zero, add_zero]
    exact congrArg Int32.toInt (Int32.add_zero _)
  · have hz : (st.1 >>> 63).toUInt32 = 1 := by
      apply UInt32.toNat_inj.1
      rw [hhigh, UInt32.toNat_one]
      omega
    rw [hz, show (1 : UInt32).toUInt64 - 1 = 0 from rfl, UInt64.and_zero, UInt64.xor_zero]
    refine ⟨⟨0, by norm_num, by rw [pow_zero, mul_one], ?_⟩, not_lt.1 hlt⟩
    have h1 : (1 : UInt32).toInt32.toInt = 1 := rfl
    rw [abs_le] at he
    rw [toInt_add_of_le (by omega) (by omega), h1]
    rfl

theorem NormStep.trans {k k' : ℕ} {st st' st'' : UInt64 × Int32} (h : NormStep k st st') (h' : NormStep k' st' st'') :
    NormStep (k + k') st st'' := by
  obtain ⟨s, hs, h1, h2⟩ := h
  obtain ⟨s', hs', h1', h2'⟩ := h'
  refine ⟨s + s', by omega, ?_, ?_⟩
  · rw [h1', h1, pow_add, mul_assoc]
  · omega

theorem NormStep.bound {k : ℕ} {st st' : UInt64 × Int32} (h : NormStep k st st') {b : ℤ} (hb : |st.2.toInt| ≤ b) :
    |st'.2.toInt| ≤ b + k := by
  obtain ⟨s, hs, -, h2⟩ := h
  rw [abs_le] at hb ⊢
  omega

/-- A word that is not zero is shifted until its highest bit is set. -/
theorem fprNorm64_spec {m : UInt64} {e : Int32} (he : |e.toInt| ≤ 10000) (hm : m ≠ 0) : ∃ s : ℕ,
    (fprNorm64 m e).1.toNat = m.toNat * 2 ^ s ∧ (fprNorm64 m e).2.toInt = e.toInt - s ∧
      2 ^ 63 ≤ (fprNorm64 m e).1.toNat := by
  have h63 : (63 : Int32).toInt = 63 := rfl
  have he' := abs_le.1 he
  have he0 : (e - 63).toInt = e.toInt - 63 := by
    rw [toInt_sub_of_le] <;> rw [h63] <;> omega
  have hm0 : 0 < m.toNat := by
    rw [Nat.pos_iff_ne_zero]
    exact fun hc => hm (UInt64.toNat_inj.1 hc)
  have hb0 : |((m, e - 63) : UInt64 × Int32).2.toInt| ≤ 10063 := by
    rw [abs_le]
    simp only
    omega
  obtain ⟨h5, g5⟩ := fprNorm64Step_spec (j := 5) (k := 32) (by norm_num) (by norm_num) (by decide) (by decide)
    (hb0.trans (by norm_num)) (show 2 ^ (64 - 2 * 32) ≤ m.toNat by omega)
  have hb5 := h5.bound hb0
  obtain ⟨h4, g4⟩ := fprNorm64Step_spec (j := 4) (k := 16) (by norm_num) (by norm_num) (by decide) (by decide)
    (hb5.trans (by norm_num)) g5
  have hb4 := h4.bound hb5
  obtain ⟨h3, g3⟩ := fprNorm64Step_spec (j := 3) (k := 8) (by norm_num) (by norm_num) (by decide) (by decide)
    (hb4.trans (by norm_num)) g4
  have hb3 := h3.bound hb4
  obtain ⟨h2, g2⟩ := fprNorm64Step_spec (j := 2) (k := 4) (by norm_num) (by norm_num) (by decide) (by decide)
    (hb3.trans (by norm_num)) g3
  have hb2 := h2.bound hb3
  obtain ⟨h1, g1⟩ := fprNorm64Step_spec (j := 1) (k := 2) (by norm_num) (by norm_num) (by decide) (by decide)
    (hb2.trans (by norm_num)) g2
  have hb1 := h1.bound hb2
  obtain ⟨h0, g0⟩ := fprNorm64Last_spec (hb1.trans (by norm_num)) g1
  obtain ⟨s, hs, k1, k2⟩ := ((((h5.trans h4).trans h3).trans h2).trans h1).trans h0
  refine ⟨s, k1, ?_, g0⟩
  have k2' : (fprNorm64 m e).2.toInt = (e - 63).toInt + ((32 + 16 + 8 + 4 + 2 + 1 - s : ℕ) : ℤ) := k2
  omega

theorem fprNorm64_zero (e : Int32) : (fprNorm64 0 e).1 = 0 := by
  have hstep : ∀ (j : UInt32) (st : UInt64 × Int32), st.1 = 0 → (fprNorm64Step j st).1 = 0 := by
    intro j st h
    unfold fprNorm64Step
    simp only [h, UInt64.zero_shiftLeft, UInt64.xor_self, UInt64.zero_and]
  have h := hstep 1 _ (hstep 2 _ (hstep 3 _ (hstep 4 _ (hstep 5 (0, e - 63) rfl))))
  unfold fprNorm64
  simp only [h, UInt64.zero_shiftLeft, UInt64.xor_self, UInt64.zero_and]

/-- The bits that are dropped are collected in the lowest bit. -/
theorem stick_eq_or (m j : ℕ) : stick m j = m / 2 ^ j ||| (if m % 2 ^ j = 0 then 0 else 1) := by
  unfold stick
  split
  · rw [Nat.or_zero]
  · have h1 : (m / 2 ^ j ||| 1) / 2 = m / 2 ^ j / 2 := by
      rw [Nat.or_div_two, show 1 / 2 = 0 from rfl, Nat.or_zero]
    have h2 : (m / 2 ^ j ||| 1) % 2 = 1 := Nat.or_mod_two_eq_one.2 (.inr rfl)
    omega

private theorem toNat_stick9 (m : UInt64) : (stick9 m).toNat = stick m.toNat 9 := by
  have hand : (m.toUInt32 &&& 0x1FF).toNat = m.toNat % 2 ^ 9 := by
    rw [UInt32.toNat_and, UInt64.toNat_toUInt32, show (0x1FF : UInt32).toNat = 2 ^ 9 - 1 from rfl,
      Nat.and_two_pow_sub_one_eq_mod]
    omega
  have hadd : ((m.toUInt32 &&& 0x1FF) + 0x1FF).toUInt64.toNat = m.toNat % 2 ^ 9 + 511 := by
    rw [UInt32.toNat_toUInt64, UInt32.toNat_add, hand, show (0x1FF : UInt32).toNat = 511 from rfl]
    omega
  rw [stick9, UInt64.toNat_shiftRight, UInt64.toNat_or, hadd, show (9 : UInt64).toNat % 64 = 9 from rfl,
    Nat.shiftRight_or_distrib, stick_eq_or, Nat.shiftRight_eq_div_pow, Nat.shiftRight_eq_div_pow]
  have hbit : (m.toNat % 2 ^ 9 + 511) / 2 ^ 9 = if m.toNat % 2 ^ 9 = 0 then 0 else 1 := by
    split <;> omega
  rw [hbit]

/-- The normalized mantissa with its exponent has the value of the integer with its exponent. -/
theorem norm_stick_spec {m : UInt64} {e : Int32} (he : |e.toInt| ≤ 10000) (hm : m ≠ 0) {x : ℝ}
    (h : IsSticky x (m.toNat : ℤ)) (hx : 2 ^ 54 ≤ m.toNat ∨ x = m.toNat) :
    ∃ v : ℝ, IsSticky v ((stick9 (fprNorm64 m e).1).toNat : ℤ) ∧ 2 ^ 54 ≤ (stick9 (fprNorm64 m e).1).toNat ∧
      (stick9 (fprNorm64 m e).1).toNat < 2 ^ 55 ∧ v * 2 ^ ((fprNorm64 m e).2.toInt + 9) = x * 2 ^ e.toInt ∧
      |(fprNorm64 m e).2.toInt| ≤ 10063 := by
  obtain ⟨s, h1, h2, h3⟩ := fprNorm64_spec he hm
  have hlt := (fprNorm64 m e).1.toNat_lt
  rw [h1] at h3 hlt
  have hm1 : 1 ≤ m.toNat := by
    rw [Nat.one_le_iff_ne_zero]
    exact fun hc => hm (UInt64.toNat_inj.1 hc)
  have hs64 : s < 64 := by
    rw [← Nat.pow_lt_pow_iff_right (show 1 < 2 by norm_num)]
    exact (Nat.le_mul_of_pos_left _ hm1).trans_lt hlt
  have hs : s ≤ 9 ∨ x = m.toNat := by
    refine hx.imp_left fun h54 => ?_
    have hpow : 2 ^ (54 + s) < 2 ^ 64 := by
      rw [pow_add]
      exact (Nat.mul_le_mul_right _ h54).trans_lt hlt
    have := (Nat.pow_lt_pow_iff_right (show 1 < 2 by norm_num)).1 hpow
    omega
  have hst : (stick9 (fprNorm64 m e).1).toNat = stick (m.toNat * 2 ^ s) 9 := by
    rw [toNat_stick9, h1]
  refine ⟨x * 2 ^ s / 2 ^ 9, ?_, ?_, ?_, ?_, ?_⟩
  · rw [hst]
    exact h.stick_scaled hs
  · rw [hst, stick]
    split <;> omega
  · rw [hst, stick]
    split <;> omega
  · rw [h2, sub_add_eq_add_sub, zpow_sub₀ two_ne_zero, zpow_add₀ two_ne_zero, zpow_natCast,
      show ((2 : ℝ) ^ (9 : ℤ)) = 2 ^ 9 from zpow_natCast 2 9]
    field_simp
  · rw [h2]
    rw [abs_le] at he ⊢
    omega

theorem fprRound_zero : fprRound 0 = 0 := by
  rw [fprRound_def, abs_zero, if_pos (zpow_pos two_pos _)]

theorem fprRound_neg (v : ℝ) : fprRound (-v) = -fprRound v := by
  rw [fprRound_def, fprRound_def, abs_neg, roundTo_neg]
  split
  · rw [neg_zero]
  · rfl

theorem abs_fprRound_le (v : ℝ) : |fprRound v| ≤ 2 * |v| := by
  rw [fprRound_def]
  split
  · rw [abs_zero]
    positivity
  · have h := abs_sub_roundTo_le_mul 53 v
    have hdiv : |v| / 2 ^ 53 ≤ |v| := div_le_self (abs_nonneg v) (by norm_num)
    have htri := abs_sub_abs_le_abs_sub (roundTo 53 v) v
    rw [abs_sub_comm] at htri
    linarith

/-- The sign of an integer as a bit. -/
private theorem signBit_of_int (i : Int64) : (i.toUInt64 >>> 63).toUInt32.toInt32 = if i.toInt < 0 then 1 else 0 := by
  have hlt := i.toInt_lt
  have hle := i.le_toInt
  have hu := toNat_toUInt64 i
  have hbit : (i.toUInt64 >>> 63).toUInt32 = if i.toInt < 0 then 1 else 0 := by
    apply UInt32.toNat_inj.1
    rw [UInt64.toNat_toUInt32, UInt64.toNat_shiftRight, Nat.shiftRight_eq_div_pow,
      show (63 : UInt64).toNat % 64 = 63 from rfl]
    split
    · rw [UInt32.toNat_one]
      omega
    · rw [UInt32.toNat_zero]
      omega
  rw [hbit]
  split <;> rfl

/-- The absolute value of an integer. -/
private theorem toNat_absInt {i : Int64} (hi : -2 ^ 63 < i.toInt) {s : Int32} (hs : s = if i.toInt < 0 then 1 else 0) :
    (((i ^^^ -s.toInt64) + s.toInt64).toUInt64.toNat : ℤ) = |i.toInt| := by
  have hlt := i.toInt_lt
  have hu := toNat_toUInt64 i
  rw [hs, xor_neg_add i (by split <;> [right; left] <;> rfl)]
  by_cases hn : i.toInt < 0
  · rw [if_pos hn, if_neg (by decide), abs_of_neg hn, toNat_toUInt64, Int64.toInt_neg,
      Int.bmod_eq_of_le (by omega) (by omega)]
    omega
  · rw [if_neg hn, if_pos (show (0 : Int32).toInt64 = 0 from rfl), abs_of_nonneg (not_lt.1 hn), hu]
    omega

/-- The bit that tells a word from zero. -/
private theorem nonzeroBit (a : Int64) : ((a ||| -a).toUInt64 >>> 63).toUInt32 = if a.toUInt64 = 0 then 0 else 1 := by
  rw [Int64.toUInt64_or, Int64.toUInt64_neg, or_neg_shiftRight_63]
  split <;> rfl

/-- The integer `i`, scaled by a power of two, is rounded to nearest even. -/
theorem fprScaled_encodes {i : Int64} {sc : Int32} (hi : -2 ^ 63 < i.toInt) (hsc : |sc.toInt| ≤ 9000)
    (hfit : fprRound (|(i.toInt : ℝ)| * 2 ^ sc.toInt) < 2 ^ (1024 : ℤ)) :
    Encodes (fprScaled i sc) (if i.toInt < 0 then 1 else 0) (fprRound (|(i.toInt : ℝ)| * 2 ^ sc.toInt)) := by
  have h9 : (9 : Int32).toInt = 9 := rfl
  rw [abs_le] at hsc
  have he : (9 + sc).toInt = 9 + sc.toInt := by
    rw [toInt_add_of_le] <;> rw [h9] <;> omega
  unfold fprScaled
  simp only
  rw [signBit_of_int i]
  generalize hs : (if i.toInt < 0 then (1 : Int32) else 0) = s
  have habs := toNat_absInt hi hs.symm
  have hs01 : s = 0 ∨ s = 1 := by
    rw [← hs]
    split <;> [right; left] <;> rfl
  have hsign : (if i.toInt < 0 then 1 else 0) = s.toInt.toNat := by
    rw [← hs]
    split <;> rfl
  generalize (i ^^^ -s.toInt64) + s.toInt64 = a at habs ⊢
  rw [nonzeroBit, hsign]
  by_cases ha : a.toUInt64 = 0
  · have h0 : |(i.toInt : ℝ)| = 0 := by
      rw [ha] at habs
      have : |i.toInt| = 0 := habs.symm
      exact_mod_cast this
    rw [if_pos ha, h0, zero_mul, fprRound_zero, show -(0 : UInt32).toUInt64 = 0 from rfl, UInt64.and_zero]
    exact FPR_of_masked hs01 (.inl rfl)
  · have hx : |(i.toInt : ℝ)| = (a.toUInt64.toNat : ℤ) := by
      rw [habs]
      push_cast
      rfl
    rw [if_neg ha, show -(1 : UInt32).toUInt64 = -1 from rfl, UInt64.and_neg_one,
      show -(1 : UInt32).toInt32 = -1 from rfl, Int32.and_neg_one]
    obtain ⟨v, h1, h2, h3, h4, -⟩ := norm_stick_spec (e := 9 + sc) (by rw [he, abs_le]; omega) ha (.inl hx)
      (.inr hx)
    have hv : |(i.toInt : ℝ)| * 2 ^ sc.toInt = v * 2 ^ (fprNorm64 a.toUInt64 (9 + sc)).2.toInt := by
      rw [he, add_comm (9 : ℤ), zpow_add₀ two_ne_zero, zpow_add₀ two_ne_zero, ← mul_assoc, ← mul_assoc] at h4
      exact (mul_right_cancel₀ (by positivity) h4).symm
    rw [hv] at hfit ⊢
    exact FPR_spec hs01 h1 h2 h3 hfit

/-! ### Shifts by a computed count -/

private theorem toNat_count (n : Int32) {m : Int32} {k : ℕ} (hm : m.toUInt32.toNat = 2 ^ k - 1) (hk : k ≤ 31) :
    ((n &&& m).toInt64.toUInt64.toNat : ℤ) = n.toInt % 2 ^ k := by
  have hpow : (2 : ℤ) ^ k ≤ 2 ^ 31 := by
    exact_mod_cast Nat.pow_le_pow_right (by norm_num) hk
  have h1 : 0 ≤ n.toInt % 2 ^ k := Int.emod_nonneg _ (by positivity)
  have h2 : n.toInt % 2 ^ k < 2 ^ k := Int.emod_lt_of_pos _ (by positivity)
  rw [toNat_toUInt64, Int32.toInt_toInt64, toInt_and_mask n hm hk]
  exact Int.emod_eq_of_lt h1 (by omega)

/-- The first half of a shift: by 32 if the count is at least 32. -/
private theorem half_mask {n : Int32} (h0 : 0 ≤ n.toInt) (h : n.toInt < 64) :
    -(n >>> 5).toInt64.toUInt64 = if n.toInt < 32 then 0 else -1 := by
  have h5 := toInt_shiftRight_of_lt n (n := 5) (by decide) (by decide)
  rw [show (5 : Int32).toInt.toNat = 5 from rfl] at h5
  split
  · have : n >>> 5 = 0 := Int32.toInt_inj.1 (by rw [h5, Int32.toInt_zero]; omega)
    rw [this]
    rfl
  · have : n >>> 5 = 1 := Int32.toInt_inj.1 (by rw [h5, show (1 : Int32).toInt = 1 from rfl]; omega)
    rw [this]
    rfl

theorem toNat_fprUrsh (x : UInt64) {n : Int32} (h0 : 0 ≤ n.toInt) (h : n.toInt < 64) :
    (fprUrsh x n).toNat = x.toNat / 2 ^ n.toInt.toNat := by
  have hc := toNat_count n (m := 31) (k := 5) rfl (by norm_num)
  unfold fprUrsh
  simp only
  rw [half_mask h0 h, UInt64.toNat_shiftRight, Nat.shiftRight_eq_div_pow]
  split
  · have hn : (n &&& 31).toInt64.toUInt64.toNat % 64 = n.toInt.toNat := by omega
    rw [UInt64.and_zero, UInt64.xor_zero, hn]
  · have hn : 32 + (n &&& 31).toInt64.toUInt64.toNat % 64 = n.toInt.toNat := by omega
    rw [xor_and_neg_one, UInt64.toNat_shiftRight, Nat.shiftRight_eq_div_pow,
      show (32 : UInt64).toNat % 64 = 32 from rfl,
      Nat.div_div_eq_div_mul, ← pow_add, hn]

theorem toNat_fprUlsh (x : UInt64) {n : Int32} (h0 : 0 ≤ n.toInt) (h : n.toInt < 64) :
    (fprUlsh x n).toNat = x.toNat * 2 ^ n.toInt.toNat % 2 ^ 64 := by
  have hc := toNat_count n (m := 31) (k := 5) rfl (by norm_num)
  unfold fprUlsh
  simp only
  rw [half_mask h0 h, UInt64.toNat_shiftLeft, Nat.shiftLeft_eq]
  split
  · have hn : (n &&& 31).toInt64.toUInt64.toNat % 64 = n.toInt.toNat := by omega
    rw [UInt64.and_zero, UInt64.xor_zero, hn]
  · have hn : 32 + (n &&& 31).toInt64.toUInt64.toNat % 64 = n.toInt.toNat := by omega
    rw [xor_and_neg_one, UInt64.toNat_shiftLeft, Nat.shiftLeft_eq, show (32 : UInt64).toNat % 64 = 32 from rfl,
      Nat.mod_mul_mod, mul_assoc, ← pow_add, hn]

end DfVrf.Crypto
