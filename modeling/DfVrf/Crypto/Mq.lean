import DfVrf.Lib.InPlace
import Mathlib.Data.ZMod.Basic
import Mathlib.Tactic.LinearCombination

/-!
# Arithmetic modulo `q = 12289` in the C code (`vrfy.c`)

The scalar operations `mq_add`, `mq_sub`, `mq_rshift1`, `mq_montymul` on `uint32_t`, with the wrap-around that
their sign masks rely on.  On operands below `q` each returns a value below `q` that represents the result in
`ℤ_q` (`Zq`); the Montgomery product represents `x * y / R` with `R = 2 ^ 16`.
-/

namespace DfVrf

/-- The ring of coefficients. -/
abbrev Zq := ZMod 12289

instance : Nontrivial Zq := ⟨0, 1, by decide⟩

namespace Crypto

def Q : UInt32 := 12289
def Q0I : UInt32 := 12287
def R : UInt32 := 4091
def R2 : UInt32 := 10952

/-- `mq_conv_small`: a small signed integer modulo `q`. -/
def mqConvSmall (x : Int32) : UInt32 :=
  let y := x.toUInt32
  y + (Q &&& -(y >>> 31))

def mqAdd (x y : UInt32) : UInt32 :=
  let d := x + y - Q
  d + (Q &&& -(d >>> 31))

def mqSub (x y : UInt32) : UInt32 :=
  let d := x - y
  d + (Q &&& -(d >>> 31))

def mqRshift1 (x : UInt32) : UInt32 :=
  (x + (Q &&& -(x &&& 1))) >>> 1

def mqMontymul (x y : UInt32) : UInt32 :=
  let z := x * y
  let w := ((z * Q0I) &&& 0xFFFF) * Q
  let z := (z + w) >>> 16
  let z := z - Q
  z + (Q &&& -(z >>> 31))

def mqMontysqr (x : UInt32) : UInt32 := mqMontymul x x

/-- `mq_div_12289`: `x / y` modulo `q`, by the addition chain for `y ^ (q - 2)` on Montgomery representations. -/
def mqDiv12289 (x y : UInt32) : UInt32 :=
  let y0 := mqMontymul y R2
  let y1 := mqMontysqr y0
  let y2 := mqMontymul y1 y0
  let y3 := mqMontymul y2 y1
  let y4 := mqMontysqr y3
  let y5 := mqMontysqr y4
  let y6 := mqMontysqr y5
  let y7 := mqMontysqr y6
  let y8 := mqMontysqr y7
  let y9 := mqMontymul y8 y2
  let y10 := mqMontymul y9 y8
  let y11 := mqMontysqr y10
  let y12 := mqMontysqr y11
  let y13 := mqMontymul y12 y9
  let y14 := mqMontysqr y13
  let y15 := mqMontysqr y14
  let y16 := mqMontymul y15 y10
  let y17 := mqMontysqr y16
  let y18 := mqMontymul y17 y0
  mqMontymul y18 x

/-! ### Signed and unsigned values -/

/-- The conversion of an `int32_t` to `uint32_t` reduces modulo `2 ^ 32`. -/
theorem toNat_toUInt32 (x : Int32) : (x.toUInt32.toNat : ℤ) = x.toInt % 2 ^ 32 := by
  have h := BitVec.toInt_eq_toNat_bmod x.toBitVec
  have hlt := x.toBitVec.isLt
  rw [Int32.toInt_toBitVec] at h
  rw [← Int32.toNat_toBitVec, h]
  generalize x.toBitVec.toNat = t at hlt ⊢
  rw [Int.bmod_def]
  split <;> omega

/-- A `uint32_t` below `2 ^ 31` keeps its value as an `int32_t`. -/
theorem toInt_toInt32 {x : UInt32} (hx : x.toNat < 2 ^ 31) : x.toInt32.toInt = x.toNat := by
  have h := toNat_toUInt32 x.toInt32
  have h1 := x.toInt32.le_toInt
  have h2 := x.toInt32.toInt_lt
  rw [UInt32.toUInt32_toInt32] at h
  omega

/-! ### Sign masks -/

/-- The mask made from a sign bit: all ones exactly when the bit is set. -/
theorem neg_shift_31 (x : UInt32) : -(x >>> 31) = if x.toNat < 2 ^ 31 then 0 else 0xFFFFFFFF := by
  have hx := x.toNat_lt
  have hs : (x >>> 31).toNat = x.toNat / 2 ^ 31 := by
    rw [UInt32.toNat_shiftRight, Nat.shiftRight_eq_div_pow]
    rfl
  split
  · rename_i h
    rw [show x >>> 31 = 0 from UInt32.toNat_inj.1 (by rw [hs, Nat.div_eq_of_lt h]; rfl)]
    rfl
  · rename_i h
    rw [show x >>> 31 = 1 from UInt32.toNat_inj.1 (by
      rw [hs, show (1 : UInt32).toNat = 1 from rfl]
      omega)]
    rfl

/-- The masked modulus that the code adds after a subtraction: `q` exactly when the sign bit is set. -/
theorem q_and_neg_shift (d : UInt32) :
    Q &&& -(d >>> 31) = if d.toNat < 2 ^ 31 then 0 else Q := by
  rw [neg_shift_31]
  split
  · rfl
  · rfl

private theorem toNat_add_mask (d : UInt32) : (d + (Q &&& -(d >>> 31))).toNat =
    if d.toNat < 2 ^ 31 then d.toNat else (d.toNat + 12289) % 2 ^ 32 := by
  have hd := d.toNat_lt
  rw [q_and_neg_shift]
  split
  · rw [UInt32.add_zero]
  · rw [UInt32.toNat_add]
    rfl

/-! ### The operations on reduced operands -/

/-- A value below `q`. -/
def Reduced (x : UInt32) : Prop := x.toNat < 12289

/-- The element of `ℤ_q` that a value represents. -/
def toZq (x : UInt32) : Zq := (x.toNat : Zq)

theorem zq_natCast_eq {a b : ℕ} (h : a % 12289 = b % 12289) : (a : Zq) = (b : Zq) :=
  (ZMod.natCast_eq_natCast_iff a b 12289).2 h

private theorem toNat_mqAdd {x y : UInt32} (hx : Reduced x) (hy : Reduced y) :
    (mqAdd x y).toNat = (x.toNat + y.toNat) % 12289 := by
  have hQ : Q.toNat = 12289 := rfl
  unfold Reduced at hx hy
  rw [mqAdd, toNat_add_mask, UInt32.toNat_sub, UInt32.toNat_add, hQ]
  split <;> omega

private theorem toNat_mqSub {x y : UInt32} (hx : Reduced x) (hy : Reduced y) :
    (mqSub x y).toNat = (x.toNat + (12289 - y.toNat)) % 12289 := by
  unfold Reduced at hx hy
  rw [mqSub, toNat_add_mask, UInt32.toNat_sub]
  split <;> omega

theorem mqAdd_spec {x y : UInt32} (hx : Reduced x) (hy : Reduced y) :
    Reduced (mqAdd x y) ∧ toZq (mqAdd x y) = toZq x + toZq y := by
  have h := toNat_mqAdd hx hy
  refine ⟨?_, ?_⟩
  · rw [Reduced, h]
    exact Nat.mod_lt _ (by omega)
  · rw [toZq, h, ZMod.natCast_mod, Nat.cast_add]
    rfl

theorem mqSub_spec {x y : UInt32} (hx : Reduced x) (hy : Reduced y) :
    Reduced (mqSub x y) ∧ toZq (mqSub x y) = toZq x - toZq y := by
  have h := toNat_mqSub hx hy
  refine ⟨?_, ?_⟩
  · rw [Reduced, h]
    exact Nat.mod_lt _ (by omega)
  · have hq : ((12289 : ℕ) : Zq) = 0 := ZMod.natCast_self 12289
    rw [toZq, h, ZMod.natCast_mod, Nat.cast_add, Nat.cast_sub (le_of_lt hy), hq, zero_sub, ← sub_eq_add_neg]
    rfl

theorem mqConvSmall_spec {x : Int32} (h1 : -12289 < x.toInt) (h2 : x.toInt < 12289) :
    Reduced (mqConvSmall x) ∧ toZq (mqConvSmall x) = (x.toInt : Zq) := by
  have hw := toNat_toUInt32 x
  have hadd := toNat_add_mask x.toUInt32
  have hv : ((mqConvSmall x).toNat : ℤ) = if 0 ≤ x.toInt then x.toInt else x.toInt + 12289 := by
    rw [mqConvSmall, hadd]
    split <;> split <;> omega
  constructor
  · rw [Reduced]
    split at hv <;> omega
  · have hz := congrArg (Int.cast : ℤ → Zq) hv
    have hq : ((12289 : ℤ) : Zq) = 0 := by decide
    rw [Int.cast_natCast] at hz
    rw [toZq, hz]
    split
    · rfl
    · rw [Int.cast_add, hq, add_zero]

private theorem toNat_and_low (x : UInt32) : (x &&& 0xFFFF).toNat = x.toNat % 65536 := by
  rw [UInt32.toNat_and, show (0xFFFF : UInt32).toNat = 2 ^ 16 - 1 from rfl, Nat.and_two_pow_sub_one_eq_mod]

/-- The reduction step on numbers: adding the right multiple of `q` makes `p` divisible by `2 ^ 16`. -/
private theorem montgomery_step {p : ℕ} (hp : p ≤ 65535 * 12288) :
    (p + p * 12287 % 65536 * 12289) / 65536 < 24578 ∧
      (p + p * 12287 % 65536 * 12289) / 65536 * 65536 % 12289 = p % 12289 := by
  obtain ⟨k, hk⟩ : ∃ k, p * 12287 / 65536 = k := ⟨_, rfl⟩
  obtain ⟨u, hu⟩ : ∃ u, p * 12287 % 65536 = u := ⟨_, rfl⟩
  have hdm := Nat.div_add_mod (p * 12287) 65536
  have hlt := Nat.mod_lt (p * 12287) (show 0 < 65536 by omega)
  rw [hu] at hdm hlt ⊢
  rw [hk] at hdm
  -- `12287 * 12289 + 1 = 2304 * 65536`
  have ht : p + u * 12289 = 65536 * (2304 * p - 12289 * k) := by omega
  rw [ht, Nat.mul_div_cancel_left _ (by omega)]
  omega

/-- The Montgomery product as a number, where the first operand has 16 bits: it is reduced and times `2 ^ 16` it is the
product modulo `q`. -/
private theorem toNat_mqMontymul_of_lt {x y : UInt32} (hx : x.toNat < 65536) (hy : Reduced y) :
    (mqMontymul x y).toNat < 12289 ∧
      (mqMontymul x y).toNat * 65536 % 12289 = x.toNat * y.toNat % 12289 := by
  unfold Reduced at hy
  have hxy : x.toNat * y.toNat ≤ 65535 * 12288 := Nat.mul_le_mul (by omega) (by omega)
  have hz : (x * y).toNat = x.toNat * y.toNat := by rw [UInt32.toNat_mul]; omega
  generalize x.toNat * y.toNat = p at hxy hz ⊢
  have hp := montgomery_step hxy
  have hu : (x * y * Q0I &&& 0xFFFF).toNat = p * 12287 % 65536 := by
    rw [toNat_and_low, UInt32.toNat_mul, hz, show Q0I.toNat = 12287 from rfl]
    exact Nat.mod_mod_of_dvd _ ⟨65536, rfl⟩
  have ht : ((x * y + (x * y * Q0I &&& 0xFFFF) * Q) >>> 16).toNat =
      (p + p * 12287 % 65536 * 12289) / 65536 := by
    rw [UInt32.toNat_shiftRight, UInt32.toNat_add, hz, UInt32.toNat_mul, hu, show Q.toNat = 12289 from rfl,
      Nat.shiftRight_eq_div_pow, show (16 : UInt32).toNat % 32 = 16 from rfl]
    have hlt := Nat.mod_lt (p * 12287) (show 0 < 65536 by omega)
    obtain ⟨u, hu⟩ : ∃ u, p * 12287 % 65536 = u := ⟨_, rfl⟩
    rw [hu] at hlt ⊢
    rw [Nat.mod_eq_of_lt (a := u * 12289) (by omega), Nat.mod_eq_of_lt (by omega)]
  rw [mqMontymul, toNat_add_mask, UInt32.toNat_sub, ht, show Q.toNat = 12289 from rfl]
  generalize (p + p * 12287 % 65536 * 12289) / 65536 = t at hp ⊢
  obtain ⟨hlt, hmod⟩ := hp
  by_cases h : t < 12289
  · have h1 : (2 ^ 32 - 12289 + t) % 2 ^ 32 = 2 ^ 32 - 12289 + t := Nat.mod_eq_of_lt (by omega)
    rw [h1, if_neg (by omega), show 2 ^ 32 - 12289 + t + 12289 = t + 2 ^ 32 by omega, Nat.add_mod_right,
      Nat.mod_eq_of_lt (by omega)]
    exact ⟨h, hmod⟩
  · have h1 : (2 ^ 32 - 12289 + t) % 2 ^ 32 = t - 12289 := by omega
    rw [h1, if_pos (by omega)]
    constructor
    · omega
    · obtain ⟨d, rfl⟩ : ∃ d, t = 12289 + d := ⟨t - 12289, by omega⟩
      rw [← hmod, Nat.add_sub_cancel_left, Nat.add_mul, Nat.mul_add_mod]

private theorem mqMontymul_spec_of_lt {x y : UInt32} (hx : x.toNat < 65536) (hy : Reduced y) :
    Reduced (mqMontymul x y) ∧ toZq (mqMontymul x y) * 65536 = toZq x * toZq y := by
  obtain ⟨h1, h2⟩ := toNat_mqMontymul_of_lt hx hy
  refine ⟨h1, ?_⟩
  have h := zq_natCast_eq h2
  push_cast at h
  exact h

theorem Reduced.lt {x : UInt32} (hx : Reduced x) : x.toNat < 65536 := lt_trans hx (by omega)

theorem mqMontymul_spec {x y : UInt32} (hx : Reduced x) (hy : Reduced y) :
    Reduced (mqMontymul x y) ∧ toZq (mqMontymul x y) * 65536 = toZq x * toZq y :=
  mqMontymul_spec_of_lt hx.lt hy

theorem mqRshift1_spec {x : UInt32} (hx : Reduced x) :
    Reduced (mqRshift1 x) ∧ toZq (mqRshift1 x) * 2 = toZq x := by
  unfold Reduced at hx
  have hlow : (x &&& 1).toNat = x.toNat % 2 := by
    rw [UInt32.toNat_and, show (1 : UInt32).toNat = 2 ^ 1 - 1 from rfl, Nat.and_two_pow_sub_one_eq_mod]
  have hhalf : (mqRshift1 x).toNat = if x.toNat % 2 = 0 then x.toNat / 2 else (x.toNat + 12289) / 2 := by
    rw [mqRshift1, UInt32.toNat_shiftRight, Nat.shiftRight_eq_div_pow, show (1 : UInt32).toNat % 32 = 1 from rfl,
      pow_one]
    split
    · rename_i h
      have : x &&& 1 = 0 := UInt32.toNat_inj.1 (by rw [hlow, h]; rfl)
      rw [this, show Q &&& -(0 : UInt32) = 0 from rfl, UInt32.add_zero]
    · have : x &&& 1 = 1 := UInt32.toNat_inj.1 (by rw [hlow, show (1 : UInt32).toNat = 1 from rfl]; omega)
      rw [this, show Q &&& -(1 : UInt32) = Q from rfl, UInt32.toNat_add, show Q.toNat = 12289 from rfl,
        Nat.mod_eq_of_lt (by omega)]
  refine ⟨?_, ?_⟩
  · rw [Reduced, hhalf]
    split <;> omega
  · have h : ((mqRshift1 x).toNat * 2) % 12289 = x.toNat % 12289 := by
      rw [hhalf]
      split <;> omega
    have h' := zq_natCast_eq h
    push_cast at h'
    exact h'

/-- The Montgomery radix is invertible modulo `q`. -/
theorem radix_mul_inv : (65536 : Zq) * 2304 = 1 := by decide

/-- A Montgomery product with the representation `y * R` of `y` is the plain product. -/
theorem mqMontymul_of_monty_of_lt {x y : UInt32} (hx : x.toNat < 65536) (hy : Reduced y) {c : Zq}
    (hc : toZq y = c * 65536) : Reduced (mqMontymul x y) ∧ toZq (mqMontymul x y) = toZq x * c := by
  obtain ⟨h1, h2⟩ := mqMontymul_spec_of_lt hx hy
  refine ⟨h1, ?_⟩
  rw [hc] at h2
  linear_combination 2304 * h2 + (toZq x * c - toZq (mqMontymul x y)) * radix_mul_inv

theorem mqMontymul_of_monty {x y : UInt32} (hx : Reduced x) (hy : Reduced y) {c : Zq}
    (hc : toZq y = c * 65536) : Reduced (mqMontymul x y) ∧ toZq (mqMontymul x y) = toZq x * c :=
  mqMontymul_of_monty_of_lt hx.lt hy hc

/-! ### Unreduced first operands

The sum and the difference are reduced by at most one multiple of `q`: the first operand may be any number of 16 bits,
but then the result need not be reduced. -/

theorem mqAdd_of_lt {x y : UInt32} (hx : x.toNat < 65536) (hy : Reduced y) :
    (mqAdd x y).toNat < 65536 ∧ toZq (mqAdd x y) = toZq x + toZq y := by
  have hQ : Q.toNat = 12289 := rfl
  unfold Reduced at hy
  have h : (mqAdd x y).toNat = if x.toNat + y.toNat < 12289 then x.toNat + y.toNat else x.toNat + y.toNat - 12289 := by
    rw [mqAdd, toNat_add_mask, UInt32.toNat_sub, UInt32.toNat_add, hQ]
    split <;> split <;> omega
  constructor
  · split at h <;> omega
  · rw [toZq, toZq, toZq, ← Nat.cast_add]
    apply zq_natCast_eq
    split at h <;> omega

theorem mqSub_of_lt {x y : UInt32} (hx : x.toNat < 65536) (hy : Reduced y) :
    (mqSub x y).toNat < 65536 ∧ toZq (mqSub x y) = toZq x - toZq y := by
  unfold Reduced at hy
  have h : (mqSub x y).toNat = if x.toNat < y.toNat then x.toNat + 12289 - y.toNat else x.toNat - y.toNat := by
    rw [mqSub, toNat_add_mask, UInt32.toNat_sub]
    split <;> split <;> omega
  constructor
  · split at h <;> omega
  · rw [eq_sub_iff_add_eq, toZq, toZq, toZq, ← Nat.cast_add]
    apply zq_natCast_eq
    split at h <;> omega

end Crypto

end DfVrf
