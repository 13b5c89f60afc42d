import DfVrf.Crypto.Fpr

/-!
# The operations on floating-point numbers (`fpr.c`)

The product, the sum, the quotient and the square root are the exact results, rounded to nearest even.

* `fprMul_spec`, `fprDiv_spec`, `fprSqrt_spec`: the value that an operation returns.
* `fprAdd_rounded`: the value of a sum.
-/

namespace DfVrf.Crypto

open Rounding SignedWords

/-! ### The fields of the operands -/

private theorem toInt_expBits (x : UInt64) : (((x >>> 52) &&& 0x7FF).toUInt32.toInt32).toInt = expBits x := by
  have hx := x.toNat_lt
  have h : ((x >>> 52) &&& 0x7FF).toUInt32.toNat = expBits x := by
    rw [UInt64.toNat_toUInt32, UInt64.toNat_and, UInt64.toNat_shiftRight, Nat.shiftRight_eq_div_pow,
      show (52 : UInt64).toNat % 64 = 52 from rfl, show (0x7FF : UInt64).toNat = 2 ^ 11 - 1 from rfl,
      Nat.and_two_pow_sub_one_eq_mod]
    unfold expBits
    omega
  have hlt := (toNat_eq x).2.2.1
  generalize ((x >>> 52) &&& 0x7FF).toUInt32 = w at h ⊢
  rw [← h] at hlt ⊢
  exact toInt_toInt32_of_lt (hlt.trans (by norm_num))

private theorem toNat_mantissa (x : UInt64) : (mantissa x).toNat = 2 ^ 52 + fracBits x := by
  have h := (toNat_eq x).2.2.2
  rw [mantissa, UInt64.toNat_or, UInt64.toNat_and,
    show (((1 : UInt64) <<< 52) - (1 : UInt64)).toNat = 2 ^ 52 - 1 from rfl, Nat.and_two_pow_sub_one_eq_mod,
    show ((1 : UInt64) <<< 52).toNat = 2 ^ 52 * 1 from rfl, Nat.or_comm, show x.toNat % 2 ^ 52 = fracBits x from rfl,
    ← Nat.two_pow_add_eq_or_of_lt h, mul_one]

/-- The sign of a product. -/
private theorem toInt_sign_xor (x y : UInt64) : (((x ^^^ y) >>> 63).toUInt32.toInt32 = 0 ∨
    ((x ^^^ y) >>> 63).toUInt32.toInt32 = 1) ∧
      ((x ^^^ y) >>> 63).toUInt32.toInt32.toInt.toNat = signBit x ^^^ signBit y := by
  have hx := (toNat_eq x).2.1
  have hy := (toNat_eq y).2.1
  have hbit : ((x ^^^ y) >>> 63).toUInt32.toNat = signBit x ^^^ signBit y := by
    rw [UInt64.toNat_toUInt32, UInt64.toNat_shiftRight, UInt64.toNat_xor, show (63 : UInt64).toNat % 64 = 63 from rfl,
      Nat.shiftRight_xor_distrib, Nat.shiftRight_eq_div_pow, Nat.shiftRight_eq_div_pow]
    refine Nat.mod_eq_of_lt ((Nat.xor_lt_two_pow (n := 1) ?_ ?_).trans (by norm_num))
    · exact Nat.lt_succ_of_le hx
    · exact Nat.lt_succ_of_le hy
  have hle : signBit x ^^^ signBit y < 2 ^ 1 := Nat.xor_lt_two_pow (Nat.lt_succ_of_le hx) (Nat.lt_succ_of_le hy)
  generalize ((x ^^^ y) >>> 63).toUInt32 = w at hbit ⊢
  have hint : w.toInt32.toInt = w.toNat := toInt_toInt32_of_lt (by omega)
  refine ⟨?_, by rw [hint, hbit]; rfl⟩
  have h01 : w = 0 ∨ w = 1 := by
    have : w.toNat = 0 ∨ w.toNat = 1 := by omega
    exact this.imp (fun h => UInt32.toNat_inj.1 h) (fun h => UInt32.toNat_inj.1 h)
  exact h01.imp (fun h => by rw [h]; rfl) (fun h => by rw [h]; rfl)

private theorem neg_one_pow_xor {a b : ℕ} (ha : a ≤ 1) (hb : b ≤ 1) : (-1 : ℝ) ^ (a ^^^ b) = (-1) ^ a * (-1) ^ b := by
  obtain rfl | rfl : a = 0 ∨ a = 1 := by omega
  · rw [Nat.zero_xor, pow_zero, one_mul]
  · obtain rfl | rfl : b = 0 ∨ b = 1 := by omega
    · rw [Nat.xor_zero, pow_zero, mul_one]
    · norm_num

/-! ### The product -/

private theorem toNat_low25 (w : UInt64) : (w.toUInt32 &&& 0x01FFFFFF).toNat = w.toNat % 2 ^ 25 := by
  rw [UInt32.toNat_and, UInt64.toNat_toUInt32, show (0x01FFFFFF : UInt32).toNat = 2 ^ 25 - 1 from rfl,
    Nat.and_two_pow_sub_one_eq_mod]
  omega

private theorem toNat_high25 {w : UInt64} (hw : w.toNat < 2 ^ 57) : (w >>> 25).toUInt32.toNat = w.toNat / 2 ^ 25 := by
  rw [UInt64.toNat_toUInt32, UInt64.toNat_shiftRight, Nat.shiftRight_eq_div_pow,
    show (25 : UInt64).toNat % 64 = 25 from rfl]
  omega

private theorem toNat_mul_words {a b : UInt32} (h : a.toNat * b.toNat < 2 ^ 64) :
    (a.toUInt64 * b.toUInt64).toNat = a.toNat * b.toNat := by
  rw [UInt64.toNat_mul, UInt32.toNat_toUInt64, UInt32.toNat_toUInt64, Nat.mod_eq_of_lt h]

/-- A carry into bit 25 says whether a limb is zero. -/
private theorem toNat_sticky25 {w : UInt32} (hw : w.toNat < 2 ^ 25) :
    ((w + 0x01FFFFFF) >>> 25).toUInt64.toNat = if w.toNat = 0 then 0 else 1 := by
  rw [UInt32.toNat_toUInt64, UInt32.toNat_shiftRight, Nat.shiftRight_eq_div_pow, UInt32.toNat_add,
    show (25 : UInt32).toNat % 32 = 25 from rfl, show (0x01FFFFFF : UInt32).toNat = 2 ^ 25 - 1 from rfl]
  split <;> omega

/-- The middle limb, as it is added up: its lowest 25 bits and the carry. -/
private theorem toNat_middleLimb {a b c : UInt32} (ha : a.toNat < 2 ^ 25) (hb : b.toNat < 2 ^ 25)
    (hc : c.toNat < 2 ^ 25) :
    ((a + b + c) &&& 0x01FFFFFF).toNat = (a.toNat + b.toNat + c.toNat) % 2 ^ 25 ∧
      ((a + b + c) >>> 25).toNat = (a.toNat + b.toNat + c.toNat) / 2 ^ 25 := by
  have hsum : (a + b + c).toNat = a.toNat + b.toNat + c.toNat := by
    rw [UInt32.toNat_add, UInt32.toNat_add]
    omega
  constructor
  · rw [UInt32.toNat_and, hsum, show (0x01FFFFFF : UInt32).toNat = 2 ^ 25 - 1 from rfl, Nat.and_two_pow_sub_one_eq_mod]
  · rw [UInt32.toNat_shiftRight, hsum, Nat.shiftRight_eq_div_pow, show (25 : UInt32).toNat % 32 = 25 from rfl]

/-- The sum of the four partial products, in limbs of 25 bits: the two lower ones only leave the sticky bit. -/
private theorem toNat_sumLimbs {p00 p01 p10 p11 : UInt64} (h00 : p00.toNat < 2 ^ 50) (h01 : p01.toNat < 2 ^ 53)
    (h10 : p10.toNat < 2 ^ 53) (h11 : p11.toNat < 2 ^ 56) {z1 : UInt32}
    (hz1 : (p00 >>> 25).toUInt32 + (p01.toUInt32 &&& 0x01FFFFFF) + (p10.toUInt32 &&& 0x01FFFFFF) = z1) :
    ((p11 + ((p01 >>> 25).toUInt32 + (p10 >>> 25).toUInt32 + (z1 >>> 25)).toUInt64) |||
      ((((p00.toUInt32 &&& 0x01FFFFFF) ||| (z1 &&& 0x01FFFFFF)) + 0x01FFFFFF) >>> 25).toUInt64).toNat =
      stick (p11.toNat * 2 ^ 50 + (p01.toNat + p10.toNat) * 2 ^ 25 + p00.toNat) 50 := by
  have l00 := toNat_low25 p00
  have l01 := toNat_low25 p01
  have l10 := toNat_low25 p10
  have c00 := toNat_high25 (w := p00) (by omega)
  have c01 := toNat_high25 (w := p01) (by omega)
  have c10 := toNat_high25 (w := p10) (by omega)
  obtain ⟨hlow, hcarry⟩ := toNat_middleLimb (a := (p00 >>> 25).toUInt32) (b := p01.toUInt32 &&& 0x01FFFFFF)
    (c := p10.toUInt32 &&& 0x01FFFFFF) (by omega) (by omega) (by omega)
  rw [hz1] at hlow hcarry
  generalize p00.toUInt32 &&& 0x01FFFFFF = a00 at *
  generalize z1 &&& 0x01FFFFFF = z1l at *
  have hzu : (p11 + ((p01 >>> 25).toUInt32 + (p10 >>> 25).toUInt32 + (z1 >>> 25)).toUInt64).toNat =
      p11.toNat + (p01.toNat / 2 ^ 25 + p10.toNat / 2 ^ 25 + (z1 >>> 25).toNat) := by
    rw [UInt64.toNat_add, UInt32.toNat_toUInt64, UInt32.toNat_add, UInt32.toNat_add, c01, c10]
    omega
  have hor : (a00 ||| z1l).toNat < 2 ^ 25 := by
    rw [UInt32.toNat_or]
    exact Nat.or_lt_two_pow (by omega) (by omega)
  have hor0 : (a00 ||| z1l).toNat = 0 ↔ a00.toNat = 0 ∧ z1l.toNat = 0 := by
    rw [UInt32.toNat_or, Nat.or_eq_zero_iff]
  have hdiv : (p11.toNat * 2 ^ 50 + (p01.toNat + p10.toNat) * 2 ^ 25 + p00.toNat) / 2 ^ 50 =
      p11.toNat + (p01.toNat / 2 ^ 25 + p10.toNat / 2 ^ 25 + (z1 >>> 25).toNat) := by omega
  have hmod : (p11.toNat * 2 ^ 50 + (p01.toNat + p10.toNat) * 2 ^ 25 + p00.toNat) % 2 ^ 50 =
      z1l.toNat * 2 ^ 25 + a00.toNat := by omega
  rw [UInt64.toNat_or, toNat_sticky25 hor, hzu, stick_eq_or, hdiv, hmod, if_congr hor0 rfl rfl]
  congr 1
  refine if_congr ?_ rfl rfl
  constructor <;> intro h <;> omega

/-- The product of the mantissas, without the lowest 50 bits except for the sticky bit. -/
private theorem toNat_mulMantissa (xu yu : UInt64) (hx : xu.toNat < 2 ^ 53) (hy : yu.toNat < 2 ^ 53) :
    (mulMantissa xu yu).toNat = stick (xu.toNat * yu.toNat) 50 := by
  have hx0 := toNat_low25 xu
  have hx1 := toNat_high25 (hx.trans (by norm_num))
  have hy0 := toNat_low25 yu
  have hy1 := toNat_high25 (hy.trans (by norm_num))
  unfold mulMantissa
  simp only
  generalize xu.toUInt32 &&& 0x01FFFFFF = x0 at hx0 ⊢
  generalize (xu >>> 25).toUInt32 = x1 at hx1 ⊢
  generalize yu.toUInt32 &&& 0x01FFFFFF = y0 at hy0 ⊢
  generalize (yu >>> 25).toUInt32 = y1 at hy1 ⊢
  have b00 : x0.toNat * y0.toNat < 2 ^ 25 * 2 ^ 25 := Nat.mul_lt_mul'' (by omega) (by omega)
  have b01 : x0.toNat * y1.toNat < 2 ^ 25 * 2 ^ 28 := Nat.mul_lt_mul'' (by omega) (by omega)
  have b10 : x1.toNat * y0.toNat < 2 ^ 28 * 2 ^ 25 := Nat.mul_lt_mul'' (by omega) (by omega)
  have b11 : x1.toNat * y1.toNat < 2 ^ 28 * 2 ^ 28 := Nat.mul_lt_mul'' (by omega) (by omega)
  have w00 := toNat_mul_words (a := x0) (b := y0) (by omega)
  have w01 := toNat_mul_words (a := x0) (b := y1) (by omega)
  have w10 := toNat_mul_words (a := x1) (b := y0) (by omega)
  have w11 := toNat_mul_words (a := x1) (b := y1) (by omega)
  have hprod : xu.toNat * yu.toNat =
      (x1.toNat * y1.toNat) * 2 ^ 50 + (x0.toNat * y1.toNat + x1.toNat * y0.toNat) * 2 ^ 25 + x0.toNat * y0.toNat := by
    have h1 : xu.toNat = x1.toNat * 2 ^ 25 + x0.toNat := by omega
    have h2 : yu.toNat = y1.toNat * 2 ^ 25 + y0.toNat := by omega
    rw [h1, h2]
    ring
  rw [hprod, ← w00, ← w01, ← w10, ← w11]
  exact toNat_sumLimbs (by omega) (by omega) (by omega) (by omega) rfl

private theorem stick_zero (m : ℕ) : stick m 0 = m := by
  rw [stick, pow_zero, Nat.mod_one, if_pos rfl, Nat.div_one]

/-- A mantissa of 55 or 56 bits is brought to 55 bits, where the lowest bit remains sticky. -/
theorem normalize55_spec {z : UInt64} (h1 : 2 ^ 54 ≤ z.toNat) (h2 : z.toNat < 2 ^ 56) :
    (normalize55 z).2.toNat ≤ 1 ∧ (normalize55 z).1.toNat = stick z.toNat (normalize55 z).2.toNat ∧
      2 ^ 54 ≤ (normalize55 z).1.toNat ∧ (normalize55 z).1.toNat < 2 ^ 55 := by
  have hw : (z >>> 55).toNat = z.toNat / 2 ^ 55 := by
    rw [UInt64.toNat_shiftRight, Nat.shiftRight_eq_div_pow, show (55 : UInt64).toNat % 64 = 55 from rfl]
  unfold normalize55
  simp only
  by_cases hz : z.toNat < 2 ^ 55
  · have h0 : z >>> 55 = 0 := by
      apply UInt64.toNat_inj.1
      rw [hw, UInt64.toNat_zero]
      omega
    rw [h0, show -(0 : UInt64) = 0 from rfl, UInt64.and_zero, UInt64.xor_zero, UInt64.toNat_zero, stick_zero]
    exact ⟨by norm_num, rfl, h1, hz⟩
  · have h0 : z >>> 55 = 1 := by
      apply UInt64.toNat_inj.1
      rw [hw, UInt64.toNat_one]
      omega
    have hst : ((z >>> 1) ||| (z &&& 1)).toNat = stick z.toNat 1 := by
      rw [UInt64.toNat_or, UInt64.toNat_shiftRight, UInt64.toNat_and, stick_eq_or, Nat.shiftRight_eq_div_pow,
        show (1 : UInt64).toNat % 64 = 1 from rfl, UInt64.toNat_one, Nat.and_one_is_mod]
      congr 1
      split <;> omega
    rw [h0, xor_and_neg_one, hst, UInt64.toNat_one]
    refine ⟨le_rfl, rfl, ?_, ?_⟩ <;> unfold stick <;> split <;> omega

/-- A mask that is computed from a biased exponent: zero if the exponent is zero. -/
private theorem mask_of_exp {e : ℕ} (he : e < 2 ^ 11) {ex : Int32} (hex : ex.toInt = e) :
    (ex + 0x7FF) >>> 11 = if e = 0 then 0 else 1 := by
  have h7 : (0x7FF : Int32).toInt = 2047 := rfl
  apply Int32.toInt_inj.1
  rw [toInt_shiftRight_of_lt _ (by decide) (by decide), toInt_add_of_le (by omega) (by omega), hex, h7,
    show (11 : Int32).toInt.toNat = 11 from rfl]
  split
  · rename_i h
    rw [h]
    rfl
  · rw [show (1 : Int32).toInt = 1 from rfl]
    omega

/-- The normalization by at most one place, and the encoding with the exponent that it gives. -/
private theorem FPR_normalize55 {s e : Int32} {q : UInt64} {v : ℝ} (hs : s = 0 ∨ s = 1) (he : |e.toInt| ≤ 10000)
    (hq : IsSticky v (q.toNat : ℤ)) (h1 : 2 ^ 54 ≤ q.toNat) (h2 : q.toNat < 2 ^ 56)
    (hfit : fprRound (v * 2 ^ e.toInt) < 2 ^ (1024 : ℤ)) :
    Encodes (FPR s (e + (normalize55 q).2.toUInt32.toInt32) (normalize55 q).1) s.toInt.toNat
      (fprRound (v * 2 ^ e.toInt)) := by
  obtain ⟨hw, hz, h3, h4⟩ := normalize55_spec h1 h2
  have hsticky := hq.stick (normalize55 q).2.toNat
  rw [← hz] at hsticky
  generalize (normalize55 q).2 = w at hw hsticky ⊢
  have hw32 : w.toUInt32.toInt32.toInt = w.toNat := by
    have hlt : w.toUInt32.toNat = w.toNat := by
      rw [UInt64.toNat_toUInt32]
      omega
    rw [toInt_toInt32_of_lt (by omega), hlt]
  rw [abs_le] at he
  have hexp : (e + w.toUInt32.toInt32).toInt = e.toInt + w.toNat := by
    rw [toInt_add_of_le (by omega) (by omega), hw32]
  have hval : v * 2 ^ e.toInt = v / 2 ^ w.toNat * 2 ^ (e + w.toUInt32.toInt32).toInt := by
    rw [hexp, zpow_add₀ two_ne_zero, zpow_natCast]
    field_simp
  rw [hval] at hfit ⊢
  exact FPR_spec hs hsticky h3 h4 hfit

/-- The product of the absolute values. -/
private theorem fprMul_encodes {x y : UInt64} (hfit : fprRound (magnitude x * magnitude y) < 2 ^ (1024 : ℤ)) :
    Encodes (fprMul x y) (signBit x ^^^ signBit y) (fprRound (magnitude x * magnitude y)) := by
  obtain ⟨-, -, hex, hfx⟩ := toNat_eq x
  obtain ⟨-, -, hey, hfy⟩ := toNat_eq y
  obtain ⟨hs, hsign⟩ := toInt_sign_xor x y
  have hx := toInt_expBits x
  have hy := toInt_expBits y
  have hmx := toNat_mantissa x
  have hmy := toNat_mantissa y
  unfold fprMul
  simp only
  rw [← hsign]
  generalize ((x ^^^ y) >>> 63).toUInt32.toInt32 = s at hs ⊢
  generalize ((x >>> 52) &&& 0x7FF).toUInt32.toInt32 = ex at hx ⊢
  generalize ((y >>> 52) &&& 0x7FF).toUInt32.toInt32 = ey at hy ⊢
  rw [Int32.shiftRight_and, mask_of_exp hex hx, mask_of_exp hey hy]
  by_cases h0 : expBits x = 0 ∨ expBits y = 0
  · have hd : ((if expBits x = 0 then 0 else 1) &&& (if expBits y = 0 then 0 else 1) : Int32) = 0 := by
      rcases h0 with h0 | h0
      · rw [if_pos h0, Int32.zero_and]
      · rw [if_pos h0, Int32.and_zero]
    have hprod : magnitude x * magnitude y = 0 := by
      rw [magnitude_def, magnitude_def]
      rcases h0 with h0 | h0
      · rw [if_pos h0, zero_mul]
      · rw [if_pos h0, mul_zero]
    rw [hd, hprod, fprRound_zero, show -(0 : Int32).toInt64.toUInt64 = 0 from rfl, UInt64.and_zero]
    exact FPR_of_masked hs (.inl rfl)
  · rw [not_or] at h0
    rw [if_neg h0.1, if_neg h0.2, show -((1 : Int32) &&& 1).toInt64.toUInt64 = -1 from rfl, UInt64.and_neg_one]
    have hmul := toNat_mulMantissa (mantissa x) (mantissa y) (by omega) (by omega)
    rw [hmx, hmy] at hmul
    have hlo : 2 ^ 52 * 2 ^ 52 ≤ (2 ^ 52 + fracBits x) * (2 ^ 52 + fracBits y) := Nat.mul_le_mul (by omega) (by omega)
    have hhi : (2 ^ 52 + fracBits x) * (2 ^ 52 + fracBits y) < 2 ^ 53 * 2 ^ 53 := Nat.mul_lt_mul'' (by omega) (by omega)
    have hmag : magnitude x * magnitude y =
        ((2 ^ 52 + fracBits x) * (2 ^ 52 + fracBits y) : ℕ) * 2 ^ ((expBits x : ℤ) + expBits y - 2150) := by
      rw [magnitude_def, magnitude_def, if_neg h0.1, if_neg h0.2, Nat.cast_mul, mul_mul_mul_comm,
        ← zpow_add₀ two_ne_zero]
      congr 2
      ring
    generalize (2 ^ 52 + fracBits x) * (2 ^ 52 + fracBits y) = P at hmul hlo hhi hmag
    generalize mulMantissa (mantissa x) (mantissa y) = z at hmul ⊢
    have hsticky : IsSticky ((P : ℝ) / 2 ^ 50) (z.toNat : ℤ) := by
      rw [hmul]
      exact IsSticky.stick (.inl (by push_cast; rfl)) 50
    have h2100 : (2100 : Int32).toInt = 2100 := rfl
    have hexp : (ex + ey - 2100).toInt = expBits x + expBits y - 2100 := by
      have ha : (ex + ey).toInt = expBits x + expBits y := by
        rw [toInt_add_of_le (by omega) (by omega), hx, hy]
      rw [toInt_sub_of_le (by omega) (by omega), ha, h2100]
    have hval : magnitude x * magnitude y = (P : ℝ) / 2 ^ 50 * 2 ^ (ex + ey - 2100).toInt := by
      rw [hmag, hexp, show (expBits x : ℤ) + expBits y - 2100 = (expBits x + expBits y - 2150) + 50 by ring,
        zpow_add₀ two_ne_zero (_ - _), show ((2 : ℝ) ^ (50 : ℤ)) = 2 ^ 50 from zpow_natCast 2 50]
      field_simp
    rw [hval] at hfit ⊢
    exact FPR_normalize55 hs (by rw [abs_le]; omega) hsticky (by rw [hmul, stick]; split <;> omega)
      (by rw [hmul, stick]; split <;> omega) hfit

/-! ### The quotient -/

/-- The sign bit of a difference compares. -/
private theorem compare_bit {a b : UInt64} (ha : a.toNat < 2 ^ 63) (hb : b.toNat < 2 ^ 63) :
    (a - b) >>> 63 = if a.toNat < b.toNat then 1 else 0 := by
  apply UInt64.toNat_inj.1
  rw [UInt64.toNat_shiftRight, Nat.shiftRight_eq_div_pow, show (63 : UInt64).toNat % 64 = 63 from rfl,
    UInt64.toNat_sub]
  split
  · rw [UInt64.toNat_one]
    omega
  · rw [UInt64.toNat_zero]
    omega

/-- The mask of a comparison. -/
private theorem compare_mask {a b : UInt64} (ha : a.toNat < 2 ^ 63) (hb : b.toNat < 2 ^ 63) :
    ((a - b) >>> 63) - 1 = if b.toNat ≤ a.toNat then -1 else 0 := by
  rw [compare_bit ha hb]
  by_cases h : a.toNat < b.toNat
  · rw [if_pos h, if_neg (not_le.2 h)]
    rfl
  · rw [if_neg h, if_pos (not_lt.1 h)]
    rfl

/-- An iteration keeps the equation of the division with remainder. -/
theorem divStep_spec {yu : UInt64} {st : UInt64 × UInt64} {N i : ℕ} (hi : i < 55) (hy : yu.toNat < 2 ^ 53)
    (h : N = yu.toNat * st.2.toNat + st.1.toNat) (hr : st.1.toNat < 2 * yu.toNat) (heven : st.2.toNat % 2 = 0)
    (hq : st.2.toNat + 2 ≤ 2 ^ (i + 1)) :
    N * 2 = yu.toNat * (divStep yu st).2.toNat + (divStep yu st).1.toNat ∧
      (divStep yu st).1.toNat < 2 * yu.toNat ∧ (divStep yu st).2.toNat % 2 = 0 ∧
      (divStep yu st).2.toNat + 2 ≤ 2 ^ (i + 2) := by
  have hpow : 2 ^ (i + 1) ≤ 2 ^ 55 := Nat.pow_le_pow_right (by norm_num) (by omega)
  have hshift : ∀ z : UInt64, z.toNat < 2 ^ 60 → (z <<< 1).toNat = z.toNat * 2 := by
    intro z hz
    rw [UInt64.toNat_shiftLeft, Nat.shiftLeft_eq, show (1 : UInt64).toNat % 64 = 1 from rfl]
    omega
  unfold divStep
  simp only
  rw [compare_mask (by omega) (by omega)]
  have hsucc : 2 ^ (i + 2) = 2 * 2 ^ (i + 1) := by ring
  by_cases hle : yu.toNat ≤ st.1.toNat
  · have hor : (st.2 ||| ((-1 : UInt64) &&& 1)).toNat = st.2.toNat + 1 := by
      rw [UInt64.toNat_or, show ((-1 : UInt64) &&& 1).toNat = 1 from rfl, or_one_of_even heven]
    have hsub : (st.1 - ((-1 : UInt64) &&& yu)).toNat = st.1.toNat - yu.toNat := by
      rw [UInt64.neg_one_and, UInt64.toNat_sub_of_le _ _ (by rwa [UInt64.le_iff_toNat_le])]
    rw [if_pos hle, hshift _ (by omega), hshift _ (by omega), hor, hsub]
    refine ⟨?_, by omega, by omega, by omega⟩
    obtain ⟨r, hr'⟩ : ∃ r, st.1.toNat = yu.toNat + r := ⟨st.1.toNat - yu.toNat, by omega⟩
    rw [h, hr', Nat.add_sub_cancel_left]
    ring
  · have hor : (st.2 ||| ((0 : UInt64) &&& 1)).toNat = st.2.toNat := by
      rw [UInt64.zero_and, UInt64.or_zero]
    have hsub : (st.1 - ((0 : UInt64) &&& yu)).toNat = st.1.toNat := by
      rw [UInt64.zero_and, UInt64.sub_zero]
    rw [if_neg hle, hshift _ (by omega), hshift _ (by omega), hor, hsub]
    refine ⟨?_, by omega, by omega, by omega⟩
    rw [h]
    ring

/-- The loop: 55 bits of the quotient, an extra zero bit, and the remainder. -/
theorem divLoop_spec {xu yu : UInt64} (hx : xu.toNat < 2 ^ 53) (hy1 : 2 ^ 52 ≤ yu.toNat) (hy : yu.toNat < 2 ^ 53)
    {i : ℕ} (hi : i ≤ 55) : ∃ st, (List.range i).foldl (fun st _ => divStep yu st) (xu, 0) = st ∧
      xu.toNat * 2 ^ i = yu.toNat * st.2.toNat + st.1.toNat ∧ st.1.toNat < 2 * yu.toNat ∧ st.2.toNat % 2 = 0 ∧
      st.2.toNat + 2 ≤ 2 ^ (i + 1) := by
  induction i with
  | zero =>
    exact ⟨(xu, 0), rfl, by simp, by simp only; omega, rfl, by simp⟩
  | succ i ih =>
    obtain ⟨st, hst, h1, h2, h3, h4⟩ := ih (by omega)
    refine ⟨_, rfl, ?_⟩
    rw [List.range_succ, List.foldl_append, hst, List.foldl_cons, List.foldl_nil, pow_succ, ← mul_assoc]
    exact divStep_spec (by omega) hy h1 h2 h3 h4

/-- The quotient with the sticky bit of the remainder. -/
theorem divQuotient_spec {xu yu : UInt64} (hx1 : 2 ^ 52 ≤ xu.toNat) (hx : xu.toNat < 2 ^ 53) (hy1 : 2 ^ 52 ≤ yu.toNat)
    (hy : yu.toNat < 2 ^ 53) {st : UInt64 × UInt64}
    (hst : (List.range 55).foldl (fun st _ => divStep yu st) (xu, 0) = st) :
    IsSticky ((xu.toNat : ℝ) * 2 ^ 55 / yu.toNat) ((st.2 ||| ((st.1 ||| -st.1) >>> 63)).toNat : ℤ) ∧
      2 ^ 54 ≤ (st.2 ||| ((st.1 ||| -st.1) >>> 63)).toNat ∧ (st.2 ||| ((st.1 ||| -st.1) >>> 63)).toNat < 2 ^ 56 := by
  obtain ⟨st', hst', h1, h2, h3, h4⟩ := divLoop_spec hx hy1 hy (i := 55) le_rfl
  obtain rfl : st' = st := hst'.symm.trans hst
  have hypos : (0 : ℝ) < yu.toNat := by
    have : 0 < yu.toNat := by omega
    exact_mod_cast this
  have hdiv : (xu.toNat : ℝ) * 2 ^ 55 / yu.toNat = st'.2.toNat + st'.1.toNat / yu.toNat := by
    have h : (xu.toNat : ℝ) * 2 ^ 55 = yu.toNat * st'.2.toNat + st'.1.toNat := by exact_mod_cast h1
    rw [h]
    field_simp
  have hlarge : 2 ^ 54 ≤ st'.2.toNat := by
    by_contra hc
    have : yu.toNat * st'.2.toNat ≤ yu.toNat * (2 ^ 54 - 2) := Nat.mul_le_mul_left _ (by omega)
    have : yu.toNat * (2 ^ 54 - 2) = yu.toNat * 2 ^ 54 - yu.toNat * 2 := Nat.mul_sub _ _ _
    omega
  rw [or_neg_shiftRight_63, hdiv]
  by_cases hz : st'.1 = 0
  · rw [if_pos hz, UInt64.or_zero, hz, UInt64.toNat_zero, Nat.cast_zero, zero_div, add_zero]
    exact ⟨.inl (by push_cast; rfl), hlarge, by omega⟩
  · have hz1 : 0 < st'.1.toNat := Nat.pos_of_ne_zero fun hc => hz (UInt64.toNat_inj.1 hc)
    have hor : (st'.2 ||| 1).toNat = st'.2.toNat + 1 := by
      rw [UInt64.toNat_or, UInt64.toNat_one, or_one_of_even h3]
    rw [if_neg hz, hor]
    refine ⟨.inr ⟨⟨(st'.2.toNat / 2 : ℕ), by push_cast; omega⟩, ?_⟩, by omega, by omega⟩
    have hf1 : 0 < (st'.1.toNat : ℝ) / yu.toNat := div_pos (by exact_mod_cast hz1) hypos
    have hf2 : (st'.1.toNat : ℝ) / yu.toNat < 2 := by
      rw [div_lt_iff₀ hypos]
      exact_mod_cast h2
    push_cast
    rw [abs_lt]
    constructor <;> linarith

/-- The quotient of the absolute values. -/
private theorem fprDiv_encodes {x y : UInt64} (hy0 : expBits y ≠ 0)
    (hfit : fprRound (magnitude x / magnitude y) < 2 ^ (1024 : ℤ)) :
    Encodes (fprDiv x y) (if expBits x = 0 then 0 else signBit x ^^^ signBit y)
      (fprRound (magnitude x / magnitude y)) := by
  obtain ⟨-, -, hex, hfx⟩ := toNat_eq x
  obtain ⟨-, -, hey, hfy⟩ := toNat_eq y
  obtain ⟨hs, hsign⟩ := toInt_sign_xor x y
  have hx := toInt_expBits x
  have hy := toInt_expBits y
  have hmx := toNat_mantissa x
  have hmy := toNat_mantissa y
  unfold fprDiv
  simp only
  rw [← hsign]
  generalize ((x ^^^ y) >>> 63).toUInt32.toInt32 = s at hs ⊢
  generalize ((x >>> 52) &&& 0x7FF).toUInt32.toInt32 = ex at hx ⊢
  generalize ((y >>> 52) &&& 0x7FF).toUInt32.toInt32 = ey at hy ⊢
  rw [mask_of_exp hex hx]
  by_cases h0 : expBits x = 0
  · have hquot : magnitude x / magnitude y = 0 := by
      rw [magnitude_def, if_pos h0, zero_div]
    rw [if_pos h0, if_pos h0, hquot, fprRound_zero, Int32.and_zero, show -(0 : Int32).toInt64.toUInt64 = 0 from rfl,
      UInt64.and_zero]
    exact FPR_of_masked (.inl rfl) (.inl rfl)
  · rw [if_neg h0, if_neg h0, show -(1 : Int32).toInt64.toUInt64 = -1 from rfl, UInt64.and_neg_one,
      Int32.and_neg_one]
    have hs1 : s &&& 1 = s := by
      rcases hs with rfl | rfl <;> rfl
    rw [hs1]
    generalize hst : (List.range 55).foldl (fun st _ => divStep (mantissa y) st) (mantissa x, 0) = st
    obtain ⟨hq, hq1, hq2⟩ := divQuotient_spec (by omega) (by omega) (by omega) (by omega) hst
    generalize st.2 ||| ((st.1 ||| -st.1) >>> 63) = q at hq hq1 hq2 ⊢
    have h55 : (55 : Int32).toInt = 55 := rfl
    have hexp : (ex - ey - 55).toInt = expBits x - expBits y - 55 := by
      have ha : (ex - ey).toInt = expBits x - expBits y := by
        rw [toInt_sub_of_le (by omega) (by omega), hx, hy]
      rw [toInt_sub_of_le (by omega) (by omega), ha, h55]
    have hval : magnitude x / magnitude y =
        (mantissa x).toNat * 2 ^ 55 / (mantissa y).toNat * 2 ^ (ex - ey - 55).toInt := by
      rw [magnitude_def, magnitude_def, if_neg h0, if_neg hy0, hmx, hmy, hexp, zpow_sub₀ two_ne_zero,
        zpow_sub₀ two_ne_zero, zpow_sub₀ two_ne_zero, zpow_sub₀ two_ne_zero,
        show ((2 : ℝ) ^ (55 : ℤ)) = 2 ^ 55 from zpow_natCast 2 55]
      have hne : ((2 ^ 52 + fracBits y : ℕ) : ℝ) ≠ 0 := by
        have : 2 ^ 52 + fracBits y ≠ 0 := by omega
        exact_mod_cast this
      field_simp
    rw [hval] at hfit ⊢
    exact FPR_normalize55 hs (by rw [abs_le]; omega) hq hq1 hq2 hfit

/-! ### The square root -/

/-- The loop of the square root of `N`: `2 * q` is in `s`, and `R` is the weight of the last bit of `s`. -/
structure SqrtInv (N i R : ℕ) (st : SqrtState) : Prop where
  weight : R * 2 ^ i = 2 ^ 54
  r_eq : st.r.toNat = R / 2
  s_eq : st.s.toNat = 2 * st.q.toNat
  q_le : st.q.toNat + R ≤ 2 ^ 54
  xu_lt : st.xu.toNat < 4 * st.q.toNat + 2 * R
  equation : 2 ^ i * (N * 2 ^ 53) = 2 ^ i * st.q.toNat ^ 2 + 2 ^ 53 * st.xu.toNat

private theorem toNat_shiftLeft_one {z : UInt64} (hz : z.toNat < 2 ^ 63) : (z <<< 1).toNat = z.toNat * 2 := by
  rw [UInt64.toNat_shiftLeft, Nat.shiftLeft_eq, show (1 : UInt64).toNat % 64 = 1 from rfl]
  omega

theorem SqrtInv.step {N i R : ℕ} {st : SqrtState} (h : SqrtInv N i R st) (hi : i < 54) :
    ∃ R', SqrtInv N (i + 1) R' (sqrtStep st) := by
  obtain ⟨h1, h2, h3, h4, h5, h6⟩ := h
  have hR : 2 ∣ R := by
    have hpow : (2 : ℕ) ^ 54 = 2 ^ (54 - i) * 2 ^ i := by
      rw [← pow_add]
      congr 1
      omega
    have : R = 2 ^ (54 - i) := Nat.eq_of_mul_eq_mul_right (by positivity) (h1.trans hpow)
    rw [this]
    exact dvd_pow_self 2 (by omega)
  obtain ⟨r, rfl⟩ := hR
  rw [Nat.mul_div_cancel_left _ (by norm_num)] at h2
  have ht : (st.s + st.r).toNat = 2 * st.q.toNat + r := by
    rw [UInt64.toNat_add, h2, h3]
    omega
  have hr2 : (st.r >>> 1).toNat = r / 2 := by
    rw [UInt64.toNat_shiftRight, h2, Nat.shiftRight_eq_div_pow, show (1 : UInt64).toNat % 64 = 1 from rfl]
  have hweight : r * 2 ^ (i + 1) = 2 ^ 54 := by
    rw [← h1]
    ring
  have hrpow : r * 2 ^ i = 2 ^ 53 := by
    have : r * 2 ^ i * 2 = 2 ^ 53 * 2 := by
      rw [mul_assoc, ← pow_succ, hweight]
      norm_num
    omega
  refine ⟨r, ?_⟩
  unfold sqrtStep
  simp only
  rw [compare_mask (by omega) (by omega)]
  by_cases hle : (st.s + st.r).toNat ≤ st.xu.toNat
  · have hx : (st.xu - (st.s + st.r)).toNat = st.xu.toNat - (2 * st.q.toNat + r) := by
      rw [UInt64.toNat_sub_of_le _ _ (by rwa [UInt64.le_iff_toNat_le]), ht]
    have hq : (st.q + st.r).toNat = st.q.toNat + r := by
      rw [UInt64.toNat_add, h2]
      omega
    have hs : (st.s + st.r <<< 1).toNat = 2 * (st.q.toNat + r) := by
      rw [UInt64.toNat_add, toNat_shiftLeft_one (by omega), h2, h3]
      omega
    rw [if_pos hle, UInt64.and_neg_one, UInt64.and_neg_one, UInt64.and_neg_one]
    refine ⟨hweight, hr2, by rw [hs, hq], by rw [hq]; omega, ?_, ?_⟩
    · rw [toNat_shiftLeft_one (by omega), hx, hq]
      omega
    · rw [toNat_shiftLeft_one (by omega), hx, hq]
      obtain ⟨d, hd⟩ : ∃ d, st.xu.toNat = 2 * st.q.toNat + r + d := ⟨st.xu.toNat - (2 * st.q.toNat + r), by omega⟩
      rw [hd] at h6 ⊢
      rw [Nat.add_sub_cancel_left, pow_succ, mul_right_comm, h6]
      have hexp : 2 ^ 53 * (2 * st.q.toNat + r) = r * 2 ^ i * (2 * st.q.toNat + r) := by rw [hrpow]
      rw [mul_add (2 ^ 53), hexp]
      ring
  · have hlt := not_le.1 hle
    rw [if_neg hle, UInt64.and_zero, UInt64.and_zero, UInt64.and_zero, UInt64.sub_zero, UInt64.add_zero,
      UInt64.add_zero]
    refine ⟨hweight, hr2, h3, by simp only; omega, ?_, ?_⟩
    · rw [toNat_shiftLeft_one (by omega)]
      simp only
      omega
    · rw [toNat_shiftLeft_one (by omega), pow_succ, mul_right_comm, h6]
      ring

theorem sqrtLoop_spec {xu : UInt64} (hx : xu.toNat < 2 ^ 55) {i : ℕ} (hi : i ≤ 54) :
    ∃ R, SqrtInv xu.toNat i R ((List.range i).foldl (fun st _ => sqrtStep st) ⟨xu, 0, 0, (1 : UInt64) <<< 53⟩) := by
  induction i with
  | zero =>
    refine ⟨2 ^ 54, ?_⟩
    rw [List.range_zero, List.foldl_nil]
    have hr : ((1 : UInt64) <<< 53).toNat = 2 ^ 53 := rfl
    exact ⟨by norm_num, hr, rfl, by simp only [UInt64.toNat_zero, zero_add, le_refl],
      by simp only [UInt64.toNat_zero]; omega, by simp only [UInt64.toNat_zero]; ring⟩
  | succ i ih =>
    obtain ⟨R, hR⟩ := ih (by omega)
    rw [List.range_succ, List.foldl_append, List.foldl_cons, List.foldl_nil]
    exact hR.step (by omega)

/-- The square root with the sticky bit of the remainder. -/
theorem sqrtRoot_spec {xu : UInt64} (hx1 : 2 ^ 53 ≤ xu.toNat) (hx : xu.toNat < 2 ^ 55) {st : SqrtState}
    (hst : (List.range 54).foldl (fun st _ => sqrtStep st) ⟨xu, 0, 0, (1 : UInt64) <<< 53⟩ = st) :
    IsSticky (2 * √((xu.toNat : ℝ) * 2 ^ 53)) (((st.q <<< 1) ||| ((st.xu ||| -st.xu) >>> 63)).toNat : ℤ) ∧
      2 ^ 54 ≤ ((st.q <<< 1) ||| ((st.xu ||| -st.xu) >>> 63)).toNat ∧
      ((st.q <<< 1) ||| ((st.xu ||| -st.xu) >>> 63)).toNat < 2 ^ 55 := by
  obtain ⟨R, hR⟩ := sqrtLoop_spec hx (i := 54) le_rfl
  rw [hst] at hR
  obtain ⟨h1, -, -, h4, h5, h6⟩ := hR
  obtain rfl : R = 1 := by omega
  have heq : 2 * (xu.toNat * 2 ^ 53) = 2 * st.q.toNat ^ 2 + st.xu.toNat := by
    have hm : 2 ^ 53 * (2 * (xu.toNat * 2 ^ 53)) = 2 ^ 53 * (2 * st.q.toNat ^ 2 + st.xu.toNat) := by
      calc 2 ^ 53 * (2 * (xu.toNat * 2 ^ 53)) = 2 ^ 54 * (xu.toNat * 2 ^ 53) := by ring
        _ = 2 ^ 54 * st.q.toNat ^ 2 + 2 ^ 53 * st.xu.toNat := h6
        _ = 2 ^ 53 * (2 * st.q.toNat ^ 2 + st.xu.toNat) := by ring
    exact Nat.eq_of_mul_eq_mul_left (by positivity) hm
  have hlo : st.q.toNat ^ 2 ≤ xu.toNat * 2 ^ 53 := by omega
  have hhi : xu.toNat * 2 ^ 53 < (st.q.toNat + 1) ^ 2 := by
    rw [add_sq]
    omega
  have hq : 2 ^ 53 ≤ st.q.toNat := by
    by_contra hc
    have : (st.q.toNat + 1) ^ 2 ≤ (2 ^ 53) ^ 2 := Nat.pow_le_pow_left (by omega) 2
    omega
  have hshift := toNat_shiftLeft_one (z := st.q) (by omega)
  rw [or_neg_shiftRight_63]
  by_cases hz : st.xu = 0
  · rw [hz, UInt64.toNat_zero, add_zero] at heq
    have hsq : (xu.toNat : ℝ) * 2 ^ 53 = (st.q.toNat : ℝ) ^ 2 := by
      have : xu.toNat * 2 ^ 53 = st.q.toNat ^ 2 := Nat.eq_of_mul_eq_mul_left two_pos heq
      exact_mod_cast this
    rw [if_pos hz, UInt64.or_zero, hshift, hsq, Real.sqrt_sq (Nat.cast_nonneg _)]
    exact ⟨.inl (by push_cast; ring), by omega, by omega⟩
  · have hz1 : 0 < st.xu.toNat := Nat.pos_of_ne_zero fun hc => hz (UInt64.toNat_inj.1 hc)
    have hor : ((st.q <<< 1) ||| 1).toNat = st.q.toNat * 2 + 1 := by
      rw [UInt64.toNat_or, UInt64.toNat_one, hshift, or_one_of_even (by omega)]
    have hs1 : (st.q.toNat : ℝ) < √((xu.toNat : ℝ) * 2 ^ 53) := by
      refine Real.lt_sqrt_of_sq_lt ?_
      have : st.q.toNat ^ 2 < xu.toNat * 2 ^ 53 := by omega
      exact_mod_cast this
    have hs2 : √((xu.toNat : ℝ) * 2 ^ 53) < st.q.toNat + 1 := by
      rw [Real.sqrt_lt' (by positivity)]
      exact_mod_cast hhi
    rw [if_neg hz, hor]
    refine ⟨.inr ⟨⟨(st.q.toNat : ℕ), by push_cast; ring⟩, ?_⟩, by omega, by omega⟩
    push_cast
    rw [abs_lt]
    constructor <;> linarith

/-- The integer whose root is taken: the mantissa, doubled once more for an odd exponent. -/
theorem sqrtOperand_spec {x : UInt64} (h0 : expBits x ≠ 0) {e k : Int32} (he : e.toInt = expBits x - 1023)
    (hk : k.toInt = e.toInt / 2) {N : UInt64}
    (hN : (mantissa x + (mantissa x &&& -(e &&& 1).toInt64.toUInt64)) <<< 1 = N) :
    2 ^ 53 ≤ N.toNat ∧ N.toNat < 2 ^ 55 ∧ magnitude x = N.toNat * 2 ^ (2 * k.toInt - 53) := by
  obtain ⟨-, -, -, hfx⟩ := toNat_eq x
  have hmx := toNat_mantissa x
  have hlow := toInt_and_mask e (m := 1) (k := 1) (by decide) (by norm_num)
  rw [pow_one] at hlow
  rw [← hN]
  obtain hpar | hpar : e.toInt % 2 = 0 ∨ e.toInt % 2 = 1 := by omega
  · have hz : e &&& 1 = 0 := Int32.toInt_inj.1 (hlow.trans hpar)
    rw [hz, show -(0 : Int32).toInt64.toUInt64 = 0 from rfl, UInt64.and_zero, UInt64.add_zero,
      toNat_shiftLeft_one (by omega), hmx]
    refine ⟨by omega, by omega, ?_⟩
    rw [magnitude_def, if_neg h0,
      show (expBits x : ℤ) - 1075 = 1 + (2 * k.toInt - 53) by omega, zpow_one_add₀ two_ne_zero]
    push_cast
    ring
  · have hz : e &&& 1 = 1 := Int32.toInt_inj.1 (hlow.trans hpar)
    have hsum : (mantissa x + mantissa x).toNat = 2 * (2 ^ 52 + fracBits x) := by
      rw [UInt64.toNat_add, hmx]
      omega
    rw [hz, show -(1 : Int32).toInt64.toUInt64 = -1 from rfl, UInt64.and_neg_one,
      toNat_shiftLeft_one (by omega), hsum]
    refine ⟨by omega, by omega, ?_⟩
    rw [magnitude_def, if_neg h0, show (expBits x : ℤ) - 1075 = 1 + (1 + (2 * k.toInt - 53)) by omega,
      zpow_one_add₀ two_ne_zero, zpow_one_add₀ two_ne_zero]
    push_cast
    ring

/-- The root of a number, by the root of its integer. -/
private theorem sqrt_scaled (N : ℕ) (k : ℤ) :
    √((N : ℝ) * 2 ^ (2 * k - 53)) = 2 * √((N : ℝ) * 2 ^ 53) * 2 ^ (k - 54) := by
  have hpos : (0 : ℝ) < 2 ^ (k - 53) := zpow_pos two_pos _
  have hsq : (N : ℝ) * 2 ^ (2 * k - 53) = N * 2 ^ 53 * (2 ^ (k - 53)) ^ 2 := by
    rw [← zpow_natCast (2 ^ (k - 53)), ← zpow_mul, mul_assoc,
      show ((2 : ℝ) ^ 53) = 2 ^ (53 : ℤ) from (zpow_natCast 2 53).symm, ← zpow_add₀ two_ne_zero]
    congr 2
    push_cast
    ring
  rw [hsq, Real.sqrt_mul (by positivity), Real.sqrt_sq hpos.le, show k - 53 = 1 + (k - 54) by ring,
    zpow_one_add₀ two_ne_zero]
  ring

/-- The root of a number in range is in range. -/
private theorem fprRound_sqrt_lt {N : ℕ} (hN : N < 2 ^ 55) {k : ℤ} (hk : k < 1000) :
    fprRound (2 * √((N : ℝ) * 2 ^ 53) * 2 ^ (k - 54)) < 2 ^ (1024 : ℤ) := by
  have hv : √((N : ℝ) * 2 ^ 53) < 2 ^ 54 := by
    rw [Real.sqrt_lt' (by positivity)]
    have : N * 2 ^ 53 < (2 ^ 54) ^ 2 := by omega
    exact_mod_cast this
  have hpos : (0 : ℝ) < 2 ^ (k - 54) := zpow_pos two_pos _
  calc fprRound (2 * √((N : ℝ) * 2 ^ 53) * 2 ^ (k - 54))
      ≤ 2 * (2 * √((N : ℝ) * 2 ^ 53) * 2 ^ (k - 54)) :=
        (le_abs_self _).trans ((abs_fprRound_le _).trans_eq (by rw [abs_of_nonneg (by positivity)]))
    _ ≤ 2 * (2 * 2 ^ 54 * 2 ^ (k - 54)) := by gcongr
    _ = 2 ^ (56 + (k - 54)) := by
      rw [zpow_add₀ two_ne_zero 56]
      norm_num
      ring
    _ < 2 ^ (1024 : ℤ) := zpow_lt_zpow_right₀ one_lt_two (by omega)

/-- The square root of the absolute value. -/
private theorem fprSqrt_encodes (x : UInt64) (hx0 : expBits x < 2047) :
    Encodes (fprSqrt x) 0 (fprRound √(magnitude x)) := by
  obtain ⟨-, -, hex, -⟩ := toNat_eq x
  have hx := toInt_expBits x
  unfold fprSqrt
  simp only
  generalize ((x >>> 52) &&& 0x7FF).toUInt32.toInt32 = ex at hx ⊢
  rw [mask_of_exp hex hx]
  by_cases h0 : expBits x = 0
  · have hmag : magnitude x = 0 := by
      rw [magnitude_def, if_pos h0]
    rw [if_pos h0, hmag, Real.sqrt_zero, fprRound_zero, show -(0 : Int32).toInt64.toUInt64 = 0 from rfl,
      UInt64.and_zero]
    exact FPR_of_masked (.inl rfl) (.inl rfl)
  · rw [if_neg h0, show -(1 : Int32).toInt64.toUInt64 = -1 from rfl, UInt64.and_neg_one]
    have h1023 : (1023 : Int32).toInt = 1023 := rfl
    have he : (ex - 1023).toInt = expBits x - 1023 := by
      rw [toInt_sub_of_le (by omega) (by omega), hx, h1023]
    generalize ex - 1023 = e at he ⊢
    have hhalf := toInt_shiftRight_of_lt e (n := 1) (by decide) (by decide)
    rw [show (1 : Int32).toInt.toNat = 1 from rfl, pow_one] at hhalf
    generalize e >>> 1 = k at hhalf ⊢
    have h54 : (54 : Int32).toInt = 54 := rfl
    have hk : (k - 54).toInt = k.toInt - 54 := by
      rw [toInt_sub_of_le (by omega) (by omega), h54]
    generalize hN : (mantissa x + (mantissa x &&& -(e &&& 1).toInt64.toUInt64)) <<< 1 = N
    obtain ⟨hN1, hN2, hval⟩ := sqrtOperand_spec h0 he hhalf hN
    generalize hst : (List.range 54).foldl (fun st _ => sqrtStep st) ⟨N, 0, 0, (1 : UInt64) <<< 53⟩ = st
    obtain ⟨hq, hq1, hq2⟩ := sqrtRoot_spec hN1 hN2 hst
    have hfit := fprRound_sqrt_lt hN2 (k := k.toInt) (by omega)
    rw [hval, sqrt_scaled]
    rw [← hk] at hfit ⊢
    exact FPR_spec (.inl rfl) hq hq1 hq2 hfit

/-! ### The sum -/

private theorem toNat_top (z : UInt64) : (z >>> 63).toUInt32.toNat = z.toNat / 2 ^ 63 := by
  have := z.toNat_lt
  rw [UInt64.toNat_toUInt32, UInt64.toNat_shiftRight, Nat.shiftRight_eq_div_pow,
    show (63 : UInt64).toNat % 64 = 63 from rfl]
  omega

/-- The bit of the swap: the absolute values are in the wrong order, or equal with a sign. -/
private theorem swapBit_eq {m n k : ℕ} (hk : k ≤ 1) {t : UInt32} (ht : t.toNat = k) :
    (if m < n then 1 else 0) ||| (((1 : UInt32) - if n < m then 1 else 0) &&& t) =
      if m < n ∨ m = n ∧ k = 1 then 1 else 0 := by
  obtain rfl : t = if k = 1 then 1 else 0 := by
    apply UInt32.toNat_inj.1
    rw [ht]
    split
    · rename_i h
      rw [h]
      rfl
    · rw [UInt32.toNat_zero]
      omega
  rcases lt_trichotomy m n with h | h | h
  · have hc : m < n ∨ m = n ∧ k = 1 := .inl h
    rw [if_pos h, if_neg (not_lt.2 h.le), if_pos hc]
    split <;> rfl
  · rw [if_neg (not_lt.2 h.ge), if_neg (not_lt.2 h.le)]
    by_cases hs : k = 1
    · have hc : m < n ∨ m = n ∧ k = 1 := .inr ⟨h, hs⟩
      rw [if_pos hs, if_pos hc]
      rfl
    · have hc : ¬ (m < n ∨ m = n ∧ k = 1) := by omega
      rw [if_neg hs, if_neg hc]
      rfl
  · have hc : ¬ (m < n ∨ m = n ∧ k = 1) := by omega
    rw [if_neg (not_lt.2 h.le), if_pos h, if_neg hc]
    split <;> rfl

private theorem addSwap_eq (x y : UInt64) :
    addSwap x y = if absBits x < absBits y ∨ absBits x = absBits y ∧ signBit x = 1 then (y, x) else (x, y) := by
  have hx := (toNat_eq x).2.1
  have hand : ∀ z : UInt64, (z &&& (((1 : UInt64) <<< 63) - (1 : UInt64))).toNat = absBits z := by
    intro z
    rw [UInt64.toNat_and, show (((1 : UInt64) <<< 63) - (1 : UInt64)).toNat = 2 ^ 63 - 1 from rfl,
      Nat.and_two_pow_sub_one_eq_mod]
    rfl
  have hbit : ∀ {a b : UInt64}, a.toNat < 2 ^ 63 → b.toNat < 2 ^ 63 →
      ((a - b) >>> 63).toUInt32 = if a.toNat < b.toNat then 1 else 0 := by
    intro a b ha hb
    rw [compare_bit ha hb]
    split <;> rfl
  have hlx : absBits x < 2 ^ 63 := Nat.mod_lt _ (by norm_num)
  have hly : absBits y < 2 ^ 63 := Nat.mod_lt _ (by norm_num)
  have hsx : (x >>> 63).toUInt32.toNat = signBit x := toNat_top x
  unfold addSwap
  simp only
  rw [UInt64.neg_sub, hbit (by rwa [hand]) (by rwa [hand]), hbit (by rwa [hand]) (by rwa [hand]), hand, hand,
    swapBit_eq hx hsx]
  split
  · rw [show -(1 : UInt32).toUInt64 = -1 from rfl, xor_and_neg_one, UInt64.xor_comm x y, xor_and_neg_one]
  · rw [show -(0 : UInt32).toUInt64 = 0 from rfl, UInt64.and_zero, UInt64.xor_zero, UInt64.xor_zero]

/-- The mantissa of a number that is not subnormal, with its exponent. -/
theorem addMantissa_spec {x : UInt64} (h : IsFpr x) {ex : Int32} (hex : ex.toInt = expBits x) :
    magnitude x = (addMantissa x ex).toNat * 2 ^ ((expBits x : ℤ) - 1078) ∧
      (addMantissa x ex).toNat = if expBits x = 0 then 0 else 8 * (2 ^ 52 + fracBits x) := by
  obtain ⟨-, -, he, hf⟩ := toNat_eq x
  have hnat : (addMantissa x ex).toNat = if expBits x = 0 then 0 else 8 * (2 ^ 52 + fracBits x) := by
    unfold addMantissa
    simp only
    rw [mask_of_exp he hex]
    have hand : (x &&& (((1 : UInt64) <<< 52) - (1 : UInt64))).toNat = fracBits x := by
      rw [UInt64.toNat_and, show (((1 : UInt64) <<< 52) - (1 : UInt64)).toNat = 2 ^ 52 - 1 from rfl,
        Nat.and_two_pow_sub_one_eq_mod]
      rfl
    have hshift : ∀ z : UInt64, z.toNat < 2 ^ 53 → (z <<< 3).toNat = 8 * z.toNat := by
      intro z hz
      rw [UInt64.toNat_shiftLeft, Nat.shiftLeft_eq, show (3 : UInt64).toNat % 64 = 3 from rfl]
      omega
    split
    · rename_i h0
      have hz : ((x &&& (((1 : UInt64) <<< 52) - (1 : UInt64))) ||| (0 : Int32).toUInt32.toUInt64 <<< 52).toNat =
        0 := by
        rw [UInt64.toNat_or, hand, h.normal h0]
        rfl
      rw [hshift _ (by omega), hz]
    · have hz : ((x &&& (((1 : UInt64) <<< 52) - (1 : UInt64))) ||| (1 : Int32).toUInt32.toUInt64 <<< 52).toNat =
          2 ^ 52 + fracBits x := by
        rw [UInt64.toNat_or, hand, show ((1 : Int32).toUInt32.toUInt64 <<< 52).toNat = 2 ^ 52 * 1 from rfl, Nat.or_comm,
          ← Nat.two_pow_add_eq_or_of_lt hf, mul_one]
      rw [hshift _ (by omega), hz]
  refine ⟨?_, hnat⟩
  rw [hnat, magnitude_def]
  split
  · rw [Nat.cast_zero, zero_mul]
  · rw [show (expBits x : ℤ) - 1075 = 3 + (expBits x - 1078) by ring, zpow_add₀ two_ne_zero]
    push_cast
    rw [show ((2 : ℝ) ^ (3 : ℤ)) = 8 by norm_num]
    ring

/-- The aligned mantissa. -/
theorem addAlign_spec (yu : UInt64) {cc : Int32} {c : ℕ} (hc : cc.toInt = c) (hc2 : c < 2 ^ 11) :
    (addAlign yu cc).toNat = if c < 60 then stick yu.toNat c else 0 := by
  have h60 : (cc - 60).toInt = c - 60 := by
    have : (60 : Int32).toInt = 60 := rfl
    rw [toInt_sub_of_le (by omega) (by omega), hc, this]
  have h63 := toInt_and_mask cc (m := 63) (k := 6) rfl (by norm_num)
  rw [hc] at h63
  have hlt : (c : ℤ) % 2 ^ 6 < 2 ^ 6 := Int.emod_lt_of_pos _ (by norm_num)
  have hge : 0 ≤ (c : ℤ) % 2 ^ 6 := Int.emod_nonneg _ (by norm_num)
  unfold addAlign
  simp only
  rw [toUInt32_shiftRight_31, h60]
  generalize cc &&& 63 = n at h63 ⊢
  split
  · rename_i hneg
    have hn : n.toInt.toNat = c := by omega
    have hone : (fprUlsh 1 n).toNat = 2 ^ c := by
      rw [toNat_fprUlsh _ (by omega) (by omega), hn, UInt64.toNat_one, one_mul]
      exact Nat.mod_eq_of_lt (Nat.pow_lt_pow_right (by norm_num) (by omega))
    have hpow : 2 ^ c ≤ 2 ^ 60 := Nat.pow_le_pow_right (by norm_num) (by omega)
    have hpos : 0 < 2 ^ c := by positivity
    have hm : (fprUlsh 1 n - 1).toNat = 2 ^ c - 1 := by
      rw [UInt64.toNat_sub_of_le _ _ (by rw [UInt64.le_iff_toNat_le, hone, UInt64.toNat_one]; omega), hone,
        UInt64.toNat_one]
    have hmod : yu.toNat % 2 ^ c < 2 ^ c := Nat.mod_lt _ hpos
    have hsum : ((yu &&& (fprUlsh 1 n - 1)) + (fprUlsh 1 n - 1)).toNat = yu.toNat % 2 ^ c + (2 ^ c - 1) := by
      rw [UInt64.toNat_add, UInt64.toNat_and, hm, Nat.and_two_pow_sub_one_eq_mod]
      exact Nat.mod_eq_of_lt (by omega)
    rw [if_pos (by omega), show -(1 : UInt32).toUInt64 = -1 from rfl, UInt64.and_neg_one,
      toNat_fprUrsh _ (by omega) (by omega), UInt64.toNat_or, hsum, hn, Nat.or_div_two_pow, stick_eq_or]
    congr 1
    split
    · rename_i h0
      rw [h0, zero_add]
      exact Nat.div_eq_of_lt (by omega)
    · rename_i h0
      rw [Nat.div_eq_iff hpos]
      omega
  · rename_i hneg
    rw [if_neg (by omega), show -(0 : UInt32).toUInt64 = 0 from rfl, UInt64.and_zero, UInt64.zero_and, UInt64.zero_add,
      UInt64.zero_or, toNat_fprUrsh _ (by omega) (by omega)]
    have hone : (fprUlsh 1 n).toNat = 2 ^ n.toInt.toNat := by
      rw [toNat_fprUlsh _ (by omega) (by omega), UInt64.toNat_one, one_mul]
      exact Nat.mod_eq_of_lt (Nat.pow_lt_pow_right (by norm_num) (by omega))
    have hpos : 0 < 2 ^ n.toInt.toNat := by positivity
    rw [UInt64.toNat_sub_of_le _ _ (by rw [UInt64.le_iff_toNat_le, hone, UInt64.toNat_one]; omega), hone,
      UInt64.toNat_one]
    exact Nat.div_eq_of_lt (by omega)

/-- A number that is far below the last bit is absorbed. -/
private theorem roundTo_absorb {M : ℕ} (h1 : 2 ^ 52 ≤ M) (h2 : M < 2 ^ 53) {δ : ℝ} (hδ : |δ| < 1) (e : ℤ) :
    roundTo 53 ((8 * M + δ) * 2 ^ e) = 8 * M * 2 ^ e := by
  have hM1 : (2 : ℝ) ^ 52 ≤ M := by exact_mod_cast h1
  have hM2 : (M : ℝ) ≤ 2 ^ 53 - 1 := by
    have : M + 1 ≤ 2 ^ 53 := h2
    have : (M : ℝ) + 1 ≤ 2 ^ 53 := by exact_mod_cast this
    linarith
  have hpos : (0 : ℝ) < 2 ^ e := zpow_pos two_pos e
  rw [abs_lt] at hδ
  have habs : |(8 * M + δ) * 2 ^ e| = (8 * M + δ) * 2 ^ e := abs_of_pos (mul_pos (by linarith) hpos)
  have hdist : |(8 * M + δ) * 2 ^ e - 8 * M * 2 ^ e| < 2 ^ e := by
    rw [← sub_mul, add_sub_cancel_left, abs_mul, abs_of_pos hpos]
    have := abs_lt.2 hδ
    nlinarith
  by_cases hlow : 8 * (M : ℝ) + δ < 2 ^ 55
  · -- the sum is below a power of two
    have hM : M = 2 ^ 52 := by
      have : (M : ℝ) < (2 ^ 52 + 1 : ℕ) := by
        push_cast
        linarith
      have := Nat.cast_lt.1 this
      omega
    have hlog : Int.log 2 |(8 * M + δ) * 2 ^ e| = 54 + e := by
      refine log_abs_eq ?_ ?_
      · rw [habs, zpow_add₀ two_ne_zero]
        refine mul_le_mul_of_nonneg_right ?_ hpos.le
        rw [show ((2 : ℝ) ^ (54 : ℤ)) = 2 ^ 54 from zpow_natCast 2 54]
        linarith
      · rw [habs, show (54 : ℤ) + e + 1 = 55 + e by ring, zpow_add₀ two_ne_zero]
        exact mul_lt_mul_of_pos_right (by exact_mod_cast hlow) hpos
    have hulp : ulp 53 ((8 * M + δ) * 2 ^ e) = 4 * 2 ^ e := by
      rw [ulp_def, hlog, show (54 : ℤ) + e + 1 - (53 : ℕ) = 2 + e by push_cast; ring, zpow_add₀ two_ne_zero]
      norm_num
    refine roundTo_eq (k := 2 ^ 53) ?_ (hdist.trans_le ?_)
    · rw [hulp, hM]
      push_cast
      ring
    · rw [hulp]
      linarith
  · have hlog : Int.log 2 |(8 * M + δ) * 2 ^ e| = 55 + e := by
      refine log_abs_eq ?_ ?_
      · rw [habs, zpow_add₀ two_ne_zero]
        refine mul_le_mul_of_nonneg_right ?_ hpos.le
        rw [show ((2 : ℝ) ^ (55 : ℤ)) = 2 ^ 55 from zpow_natCast 2 55]
        linarith
      · rw [habs, show (55 : ℤ) + e + 1 = 56 + e by ring, zpow_add₀ two_ne_zero]
        refine mul_lt_mul_of_pos_right ?_ hpos
        rw [show ((2 : ℝ) ^ (56 : ℤ)) = 2 ^ 56 from zpow_natCast 2 56]
        linarith
    have hulp : ulp 53 ((8 * M + δ) * 2 ^ e) = 8 * 2 ^ e := by
      rw [ulp_def, hlog, show (55 : ℤ) + e + 1 - (53 : ℕ) = 3 + e by push_cast; ring, zpow_add₀ two_ne_zero]
      norm_num
    refine roundTo_eq (k := M) ?_ (hdist.trans_le ?_)
    · rw [hulp]
      push_cast
      ring
    · rw [hulp]
      linarith

private theorem fprRound_absorb {M : ℕ} (h1 : 2 ^ 52 ≤ M) (h2 : M < 2 ^ 53) {δ : ℝ} (hδ : |δ| < 1) {e : ℤ}
    (he : -1076 ≤ e) :
    fprRound ((8 * M + δ) * 2 ^ e) = fprRound (8 * M * 2 ^ e) := by
  have hM1 : (2 : ℝ) ^ 52 ≤ M := by exact_mod_cast h1
  have hpos : (0 : ℝ) < 2 ^ e := zpow_pos two_pos e
  have hlarge : ∀ d : ℝ, |d| < 1 → ¬ |(8 * M + d) * 2 ^ e| < 2 ^ (-1022 : ℤ) := by
    intro d hd
    rw [abs_lt] at hd
    rw [not_lt, abs_of_pos (mul_pos (by linarith) hpos)]
    calc (2 : ℝ) ^ (-1022 : ℤ) ≤ 2 ^ (54 + e) := zpow_le_zpow_right₀ one_le_two (by omega)
      _ = 2 ^ 54 * 2 ^ e := by rw [zpow_add₀ two_ne_zero]; rfl
      _ ≤ (8 * M + d) * 2 ^ e := mul_le_mul_of_nonneg_right (by linarith) hpos.le
  have h0 := hlarge 0 (by norm_num)
  rw [add_zero] at h0
  have hr0 := roundTo_absorb h1 h2 (δ := 0) (by norm_num) e
  rw [add_zero] at hr0
  rw [fprRound_def, fprRound_def, if_neg (hlarge δ hδ), if_neg h0, roundTo_absorb h1 h2 hδ, hr0]

/-- The sign of a number as the sum extracts it. -/
def signWord (x : UInt64) : Int32 := if signBit x = 0 then 0 else 1

private theorem signWord_eq_or (x : UInt64) : signWord x = 0 ∨ signWord x = 1 := by
  unfold signWord
  split
  · exact .inl rfl
  · exact .inr rfl

private theorem toNat_signWord (x : UInt64) : (signWord x).toInt.toNat = signBit x := by
  obtain ⟨-, hs, -, -⟩ := toNat_eq x
  unfold signWord
  split
  · rename_i h
    rw [h]
    rfl
  · rw [show (1 : Int32).toInt.toNat = 1 from rfl]
    omega

private theorem signWord_inj {x y : UInt64} : signWord x = signWord y ↔ signBit x = signBit y := by
  constructor
  · intro h
    rw [← toNat_signWord x, h, toNat_signWord]
  · intro h
    rw [signWord, signWord, h]

/-- The sign and the exponent as the sum extracts them. -/
theorem toInt_head (x : UInt64) : ((x >>> 52).toUInt32.toInt32 &&& 0x7FF).toInt = expBits x ∧
    (x >>> 52).toUInt32.toInt32 >>> 11 = signWord x := by
  have hx := toNat_eq x
  have hn : (x >>> 52).toUInt32.toNat = x.toNat / 2 ^ 52 := by
    have := x.toNat_lt
    rw [UInt64.toNat_toUInt32, UInt64.toNat_shiftRight, Nat.shiftRight_eq_div_pow,
      show (52 : UInt64).toNat % 64 = 52 from rfl]
    omega
  have hi : (x >>> 52).toUInt32.toInt32.toInt = (x.toNat / 2 ^ 52 : ℕ) := by
    rw [toInt_toInt32_of_lt (by omega), hn]
  constructor
  · rw [toInt_and_mask _ (k := 11) rfl (by norm_num), hi]
    unfold expBits
    norm_cast
  · apply Int32.toInt_inj.1
    rw [toInt_shiftRight_of_lt _ (by decide) (by decide), hi, show (11 : Int32).toInt.toNat = 11 from rfl, signWord]
    split
    · rw [Int32.toInt_zero]
      omega
    · rw [show (1 : Int32).toInt = 1 from rfl]
      omega

/-- The sum or the difference of the aligned mantissas. -/
private theorem toNat_addSub (xu yu : UInt64) {sx sy : Int32} (hx : sx = 0 ∨ sx = 1) (hy : sy = 0 ∨ sy = 1)
    (hle : yu.toNat ≤ xu.toNat) (hlt : xu.toNat < 2 ^ 63) :
    (xu + (yu - ((yu <<< 1) &&& -(sx ^^^ sy).toInt64.toUInt64))).toNat =
      if sx = sy then xu.toNat + yu.toNat else xu.toNat - yu.toNat := by
  have hshift := toNat_shiftLeft_one (z := yu) (by omega)
  split
  · rename_i h
    rw [h, Int32.xor_self, show -(0 : Int32).toInt64.toUInt64 = 0 from rfl, UInt64.and_zero, UInt64.sub_zero,
      UInt64.toNat_add]
    omega
  · rename_i h
    have hone : sx ^^^ sy = 1 := by
      rcases hx with rfl | rfl <;> rcases hy with rfl | rfl
      · exact absurd rfl h
      · rfl
      · rfl
      · exact absurd rfl h
    rw [hone, show -(1 : Int32).toInt64.toUInt64 = -1 from rfl, UInt64.and_neg_one, UInt64.toNat_add, UInt64.toNat_sub,
      hshift]
    omega

/-- The aligned mantissas: the sum and the difference are sticky, and exact unless the result is large. -/
theorem aligned_spec {A B c : ℕ} (hA8 : A % 8 = 0) (hB8 : B % 8 = 0) (hA : A = 0 ∨ 2 ^ 55 ≤ A) (hB : B < 2 ^ 56)
    (h0 : c = 0 → B ≤ A) (hc : c ≠ 0 → A ≠ 0) : stick B c ≤ A ∧
      (IsSticky ((A : ℝ) + B / 2 ^ c) ((A + stick B c : ℕ) : ℤ) ∧
        (2 ^ 54 ≤ A + stick B c ∨ (A : ℝ) + B / 2 ^ c = (A + stick B c : ℕ))) ∧
      (IsSticky ((A : ℝ) - B / 2 ^ c) ((A - stick B c : ℕ) : ℤ) ∧
        (2 ^ 54 ≤ A - stick B c ∨ (A : ℝ) - B / 2 ^ c = (A - stick B c : ℕ))) := by
  have hst : IsSticky ((B : ℝ) / 2 ^ c) (stick B c : ℤ) := IsSticky.stick (.inl (by push_cast; rfl)) c
  have hev : Even (A : ℤ) := ⟨(A / 2 : ℕ), by push_cast; omega⟩
  have hsmall : c ≠ 0 → stick B c < 2 ^ 55 := by
    intro hc0
    have hdiv : B / 2 ^ c ≤ B / 2 ^ 1 := Nat.div_le_div_left (Nat.pow_le_pow_right (by norm_num) (by omega))
      (by norm_num)
    unfold stick
    split <;> omega
  have hle : stick B c ≤ A := by
    by_cases hc0 : c = 0
    · have := h0 hc0
      rwa [hc0, stick_zero]
    · have := hsmall hc0
      have := hc hc0
      omega
  -- up to three bits are dropped without loss
  have hexact : c ≤ 3 → (B : ℝ) / 2 ^ c = stick B c := by
    intro hc3
    have hdvd : 2 ^ c ∣ B := (pow_dvd_pow 2 hc3).trans (Nat.dvd_of_mod_eq_zero hB8)
    obtain ⟨q, rfl⟩ := hdvd
    have hpos : 0 < 2 ^ c := by positivity
    rw [stick, if_pos (Nat.mul_mod_right _ _), Nat.mul_div_cancel_left _ hpos]
    push_cast
    field_simp
  have hlarge : ¬ c ≤ 3 → 2 ^ 54 ≤ A - stick B c := by
    intro hc3
    have hdiv : B / 2 ^ c ≤ B / 2 ^ 4 := Nat.div_le_div_left (Nat.pow_le_pow_right (by norm_num) (by omega))
      (by norm_num)
    have hstick : stick B c ≤ B / 2 ^ 4 + 1 := by
      unfold stick
      split <;> omega
    have := hc (by omega)
    omega
  refine ⟨hle, ⟨?_, ?_⟩, ?_, ?_⟩
  · exact_mod_cast hst.add_int hev
  · by_cases hc3 : c ≤ 3
    · refine .inr ?_
      rw [hexact hc3]
      push_cast
      rfl
    · have := hlarge hc3
      exact .inl (by omega)
  · have := hst.neg.add_int hev
    rw [← sub_eq_add_neg, ← sub_eq_add_neg, ← Nat.cast_sub hle] at this
    exact_mod_cast this
  · by_cases hc3 : c ≤ 3
    · refine .inr ?_
      rw [hexact hc3, Nat.cast_sub hle]
    · exact .inl (hlarge hc3)

/-- Normalization and encoding of an integer with an exponent. -/
private theorem FPR_norm {s e : Int32} {z : UInt64} {v : ℝ} (hs : s = 0 ∨ s = 1) (he : |e.toInt| ≤ 10000)
    (h : IsSticky v (z.toNat : ℤ)) (hx : 2 ^ 54 ≤ z.toNat ∨ v = z.toNat)
      (hfit : fprRound (v * 2 ^ e.toInt) < 2 ^ (1024 : ℤ)) :
    Encodes (FPR s ((fprNorm64 z e).2 + 9) (stick9 (fprNorm64 z e).1)) s.toInt.toNat (fprRound (v * 2 ^ e.toInt)) := by
  by_cases hz : z = 0
  · rw [hz, UInt64.toNat_zero] at hx
    have hv : v = 0 := by
      rcases hx with hx | hx
      · exact absurd hx (by norm_num)
      · rw [hx, Nat.cast_zero]
    rw [hz, fprNorm64_zero, hv, zero_mul, fprRound_zero]
    exact FPR_of_masked hs (.inl rfl)
  · obtain ⟨w, h1, h2, h3, h4, h5⟩ := norm_stick_spec he hz h hx
    have h9 : (9 : Int32).toInt = 9 := rfl
    rw [abs_le] at h5
    rw [← h4, ← h9, ← toInt_add_of_le (by omega) (by omega)] at hfit ⊢
    exact FPR_spec hs h1 h2 h3 hfit

/-- The sum of the absolute values, or the difference, by the signs. -/
noncomputable def absSum (x y : UInt64) : ℝ :=
  if signBit x = signBit y then magnitude x + magnitude y else magnitude x - magnitude y

private theorem absSum_eq {x y : UInt64} {A B c : ℕ} {e : ℤ} (hx : magnitude x = A * 2 ^ e)
    (hy : magnitude y = B * 2 ^ (e - c)) : absSum x y =
      (if signBit x = signBit y then (A : ℝ) + B / 2 ^ c else A - B / 2 ^ c) * 2 ^ e := by
  have hy' : magnitude y = B / 2 ^ c * 2 ^ e := by
    rw [hy, zpow_sub₀ two_ne_zero, zpow_natCast]
    ring
  rw [absSum, hx, hy']
  split <;> ring

/-- The range of a mantissa. -/
private theorem mantissa_range {m k f : ℕ} (hf : f < 2 ^ 52) (h : m = if k = 0 then 0 else 8 * (2 ^ 52 + f)) :
    m % 8 = 0 ∧ (m = 0 ∨ 2 ^ 55 ≤ m) ∧ m < 2 ^ 56 ∧ (k ≠ 0 → m ≠ 0) := by
  split at h <;> omega

/-- The sum of aligned operands, or their difference, normalized and encoded. -/
private theorem FPR_aligned {x y xu yv : UInt64} {e : Int32} {B c : ℕ} (hA8 : xu.toNat % 8 = 0) (hB8 : B % 8 = 0)
    (hA : xu.toNat = 0 ∨ 2 ^ 55 ≤ xu.toNat) (hA2 : xu.toNat < 2 ^ 56) (hB : B < 2 ^ 56) (h0 : c = 0 → B ≤ xu.toNat)
    (hc : c ≠ 0 → xu.toNat ≠ 0) (hY : yv.toNat = stick B c) (he : |e.toInt| ≤ 10000)
    (hsum : absSum x y = (if signBit x = signBit y then (xu.toNat : ℝ) + B / 2 ^ c else xu.toNat - B / 2 ^ c) *
      2 ^ e.toInt) (hfit : fprRound (absSum x y) < 2 ^ (1024 : ℤ)) {z : UInt64}
    (hz : xu + (yv - ((yv <<< 1) &&& -(signWord x ^^^ signWord y).toInt64.toUInt64)) = z) :
    Encodes (FPR (signWord x) ((fprNorm64 z e).2 + 9) (stick9 (fprNorm64 z e).1)) (signBit x)
      (fprRound (absSum x y)) := by
  obtain ⟨g1, g2, g3⟩ := aligned_spec hA8 hB8 hA hB h0 hc
  have hval := toNat_addSub xu yv (signWord_eq_or x) (signWord_eq_or y) (by omega) (by omega)
  rw [hz, hY, if_congr signWord_inj rfl rfl] at hval
  rw [hsum] at hfit ⊢
  by_cases hxy : signBit x = signBit y
  · rw [if_pos hxy] at hval hfit ⊢
    rw [← hval] at g2
    rw [← toNat_signWord x]
    exact FPR_norm (signWord_eq_or x) he g2.1 g2.2 hfit
  · rw [if_neg hxy] at hval hfit ⊢
    rw [← hval] at g3
    rw [← toNat_signWord x]
    exact FPR_norm (signWord_eq_or x) he g3.1 g3.2 hfit

/-- An operand that is sixty places below the other one does not change the rounded sum. -/
private theorem fprRound_cleared {x y : UInt64} {M B c : ℕ} {e : ℤ} (hM1 : 2 ^ 52 ≤ M) (hM2 : M < 2 ^ 53)
    (hB : B < 2 ^ 56) (hc : 60 ≤ c) (he : -1076 ≤ e) (hsum : absSum x y =
      (if signBit x = signBit y then ((8 * M : ℕ) : ℝ) + B / 2 ^ c else (8 * M : ℕ) - B / 2 ^ c) * 2 ^ e) :
    fprRound (absSum x y) = fprRound ((8 * M : ℕ) * 2 ^ e) := by
  have hδ : (B : ℝ) / 2 ^ c < 1 := by
    rw [div_lt_one (by positivity)]
    have h60 : 2 ^ 60 ≤ 2 ^ c := Nat.pow_le_pow_right (by norm_num) hc
    have : B < 2 ^ c := by omega
    exact_mod_cast this
  have hδ0 : 0 ≤ (B : ℝ) / 2 ^ c := by positivity
  rw [hsum, show ((8 * M : ℕ) : ℝ) = 8 * (M : ℝ) by push_cast; rfl]
  split
  · exact fprRound_absorb hM1 hM2 (by rw [abs_of_nonneg hδ0]; exact hδ) he
  · rw [sub_eq_add_neg]
    exact fprRound_absorb hM1 hM2 (by rw [abs_neg, abs_of_nonneg hδ0]; exact hδ) he

private theorem addOrdered_encodes {x y : UInt64} (hx : IsFpr x) (hy : IsFpr y) (hle : absBits y ≤ absBits x)
    (hfit : fprRound (absSum x y) < 2 ^ (1024 : ℤ)) :
    Encodes (addOrdered x y) (signBit x) (fprRound (absSum x y)) := by
  obtain ⟨-, -, hex, hfx⟩ := toNat_eq x
  obtain ⟨-, -, hey, hfy⟩ := toNat_eq y
  rw [absBits_eq, absBits_eq] at hle
  obtain ⟨hex1, hsx1⟩ := toInt_head x
  obtain ⟨hey1, hsy1⟩ := toInt_head y
  unfold addOrdered
  simp only
  rw [hsx1, hsy1]
  generalize (x >>> 52).toUInt32.toInt32 &&& 0x7FF = ex at hex1 ⊢
  generalize (y >>> 52).toUInt32.toInt32 &&& 0x7FF = ey at hey1 ⊢
  obtain ⟨hmx, hA⟩ := addMantissa_spec hx hex1
  obtain ⟨hmy, hB⟩ := addMantissa_spec hy hey1
  have h1078 : (1078 : Int32).toInt = 1078 := rfl
  have hE : (ex - 1078).toInt = expBits x - 1078 := by
    rw [toInt_sub_of_le (by omega) (by omega), hex1, h1078]
  have hE' : (ey - 1078).toInt = expBits y - 1078 := by
    rw [toInt_sub_of_le (by omega) (by omega), hey1, h1078]
  obtain ⟨c, hc⟩ : ∃ c, expBits x = expBits y + c := ⟨expBits x - expBits y, by omega⟩
  have hcc : (ex - 1078 - (ey - 1078)).toInt = c := by
    rw [toInt_sub_of_le (by omega) (by omega)]
    omega
  have hY := addAlign_spec (addMantissa y ey) hcc (by omega)
  generalize addMantissa x ex = xu at hmx hA ⊢
  generalize addMantissa y ey = yu at hmy hB hY ⊢
  generalize addAlign yu (ex - 1078 - (ey - 1078)) = yv at hY ⊢
  generalize ex - 1078 = e at hE ⊢
  have he : |e.toInt| ≤ 10000 := by
    rw [abs_le]
    omega
  obtain ⟨a1, a2, a3, a4⟩ := mantissa_range hfx hA
  obtain ⟨b1, -, b3, -⟩ := mantissa_range hfy hB
  rw [← hE] at hmx
  rw [show (expBits y : ℤ) - 1078 = e.toInt - c by omega] at hmy
  have hsum := absSum_eq hmx hmy
  by_cases hc60 : c < 60
  · rw [if_pos hc60] at hY
    refine FPR_aligned a1 b1 a2 a3 b3 ?_ (fun h0 => a4 (by omega)) hY he hsum hfit rfl
    intro h0
    have hxy : expBits x = expBits y := by omega
    rw [hA, hB, hxy]
    split <;> omega
  · -- the smaller operand is cleared
    rw [if_neg hc60] at hY
    have hz := toNat_addSub xu yv (signWord_eq_or x) (signWord_eq_or y) (by omega) (by omega)
    rw [hY, Nat.add_zero, Nat.sub_zero, ite_self] at hz
    rw [if_neg (by omega)] at hA
    rw [hA] at hsum
    have hround := fprRound_cleared (by omega) (by omega) b3 (by omega) (by omega) hsum
    rw [← hA] at hround
    rw [hround] at hfit ⊢
    rw [← toNat_signWord x]
    exact FPR_norm (signWord_eq_or x) he (.inl (by rw [hz]; push_cast; rfl)) (.inr (by rw [hz])) hfit

/-! ### The number one -/

theorem isFpr_fprOne : IsFpr fprOne := ⟨by decide, by decide⟩

theorem value_fprOne : fprValue fprOne = 1 := by
  have h1 : signBit fprOne = 0 := by decide
  have h2 : expBits fprOne = 1023 := by decide
  have h3 : fracBits fprOne = 0 := by decide
  rw [fprValue, magnitude_def, h1, h2, h3, if_neg (by norm_num)]
  norm_num

theorem abs_fprOne_lt : |fprValue fprOne| < 2 ^ 63 := by
  rw [value_fprOne, abs_one]
  norm_num

theorem abs_fprRound_lt {v : ℝ} (h : |v| ≤ 2) : |fprRound v| < 2 ^ (1024 : ℤ) := by
  have hpow : (2 : ℝ) ^ (3 : ℤ) ≤ 2 ^ (1024 : ℤ) := zpow_le_zpow_right₀ one_le_two (by norm_num)
  have h8 : 2 * |v| < (2 : ℝ) ^ (3 : ℤ) := by
    norm_num
    linarith
  exact (abs_fprRound_le v).trans_lt (h8.trans_le hpow)

/-! ### The results of the operations -/

/-- The word is the correctly rounded number: no other number is nearer, unless the exact result is too small. -/
structure IsRounded (r : UInt64) (v : ℝ) : Prop where
  isFpr : IsFpr r
  value_eq : fprValue r = fprRound v
  nearest : 2 ^ (-1022 : ℤ) ≤ |v| → ∀ z, IsFpr z → |v - fprValue r| ≤ |v - fprValue z|

theorem hasPrecision_fprValue {z : UInt64} : HasPrecision 53 (fprValue z) := by
  obtain ⟨-, -, -, hf⟩ := toNat_eq z
  rw [fprValue, magnitude_def]
  split
  · exact ⟨0, 0, by norm_num, by norm_num⟩
  · refine ⟨(-1) ^ signBit z * (2 ^ 52 + fracBits z : ℕ), (expBits z : ℤ) - 1075, ?_, ?_⟩
    · rw [abs_mul, abs_pow, abs_neg, abs_one, one_pow, one_mul, Nat.abs_cast]
      exact_mod_cast (by omega : 2 ^ 52 + fracBits z < 2 ^ 53)
    · push_cast
      ring

theorem fprRound_signed (s : ℕ) (v : ℝ) : fprRound ((-1) ^ s * v) = (-1) ^ s * fprRound v := by
  rcases neg_one_pow_eq_or ℝ s with h | h
  · rw [h, one_mul, one_mul]
  · rw [h, neg_one_mul, neg_one_mul, fprRound_neg]

theorem Encodes.isRounded {r : UInt64} {s : ℕ} {v w : ℝ} (h : Encodes r s (fprRound w)) (hv : v = (-1) ^ s * w) :
    IsRounded r v := by
  have hval : fprValue r = fprRound v := by
    rw [h.value, hv, fprRound_signed]
  refine ⟨h.isFpr, hval, fun hlarge z _ => ?_⟩
  rw [hval, fprRound_def, if_neg (not_lt.2 hlarge)]
  exact abs_sub_roundTo_le (by norm_num) hasPrecision_fprValue

/-- The product, as a signed magnitude. -/
theorem fprMul_signed {x y : UInt64} (hfit : |fprRound (fprValue x * fprValue y)| < 2 ^ (1024 : ℤ)) :
    fprValue x * fprValue y = (-1) ^ (signBit x ^^^ signBit y) * (magnitude x * magnitude y) ∧
      Encodes (fprMul x y) (signBit x ^^^ signBit y) (fprRound (magnitude x * magnitude y)) := by
  have hval : fprValue x * fprValue y = (-1) ^ (signBit x ^^^ signBit y) * (magnitude x * magnitude y) := by
    rw [neg_one_pow_xor (toNat_eq x).2.1 (toNat_eq y).2.1, fprValue, fprValue]
    ring
  rw [hval, fprRound_signed, abs_mul, abs_pow, abs_neg, abs_one, one_pow, one_mul] at hfit
  exact ⟨hval, fprMul_encodes ((le_abs_self _).trans_lt hfit)⟩

/-- A product is the exact one, rounded, and its sign is determined by those of the operands. -/
theorem fprMul_spec (x y : UInt64) (hfit : |fprRound (fprValue x * fprValue y)| < 2 ^ (1024 : ℤ)) :
    IsRounded (fprMul x y) (fprValue x * fprValue y) ∧ signBit (fprMul x y) = signBit x ^^^ signBit y := by
  obtain ⟨hval, h⟩ := fprMul_signed hfit
  exact ⟨h.isRounded hval, h.signBit_eq⟩

theorem fprMul_spec_one : IsRounded (fprMul fprOne fprOne) 1 ∧ signBit (fprMul fprOne fprOne) = 0 := by
  have h := fprMul_spec fprOne fprOne (abs_fprRound_lt (by rw [value_fprOne]; norm_num))
  rw [value_fprOne, mul_one] at h
  exact ⟨h.1, h.2.trans (by decide)⟩

theorem fprDiv_spec {x y : UInt64} (hy : fprValue y ≠ 0)
    (hfit : |fprRound (fprValue x / fprValue y)| < 2 ^ (1024 : ℤ)) :
    IsRounded (fprDiv x y) (fprValue x / fprValue y) ∧
      (fprValue x ≠ 0 → signBit (fprDiv x y) = signBit x ^^^ signBit y) := by
  have hy0 : expBits y ≠ 0 := by
    intro h0
    refine hy ?_
    rw [fprValue, magnitude_def, if_pos h0, mul_zero]
  have hval : fprValue x / fprValue y = (-1) ^ (signBit x ^^^ signBit y) * (magnitude x / magnitude y) := by
    rw [neg_one_pow_xor (toNat_eq x).2.1 (toNat_eq y).2.1, fprValue, fprValue]
    rcases neg_one_pow_eq_or ℝ (signBit y) with h | h
    · rw [h]
      ring
    · rw [h, neg_one_mul, div_neg]
      ring
  rw [hval, fprRound_signed, abs_mul, abs_pow, abs_neg, abs_one, one_pow, one_mul] at hfit
  have h := fprDiv_encodes hy0 ((le_abs_self _).trans_lt hfit)
  by_cases hx0 : expBits x = 0
  · have hzero : fprValue x = 0 := by
      rw [fprValue, magnitude_def, if_pos hx0, mul_zero]
    rw [if_pos hx0] at h
    refine ⟨h.isRounded ?_, fun hc => absurd hzero hc⟩
    rw [hzero, zero_div, magnitude_def, if_pos hx0, zero_div, mul_zero]
  · rw [if_neg hx0] at h
    exact ⟨h.isRounded hval, fun _ => h.signBit_eq⟩

theorem fprDiv_spec_one : IsRounded (fprDiv fprOne fprOne) 1 ∧ signBit (fprDiv fprOne fprOne) = 0 := by
  have h0 : fprValue fprOne ≠ 0 := by
    rw [value_fprOne]
    exact one_ne_zero
  have h := fprDiv_spec h0 (x := fprOne) (abs_fprRound_lt (by rw [value_fprOne]; norm_num))
  rw [value_fprOne, div_one] at h
  exact ⟨h.1, (h.2 one_ne_zero).trans (by decide)⟩

theorem fprSqrt_spec {x : UInt64} (hx : IsFpr x) (hx0 : 0 ≤ fprValue x) :
    IsRounded (fprSqrt x) √(fprValue x) ∧ signBit (fprSqrt x) = 0 := by
  have h := fprSqrt_encodes x hx.finite
  have hval : fprValue x = magnitude x := by
    have hm := magnitude_nonneg x
    unfold fprValue at hx0 ⊢
    rcases neg_one_pow_eq_or ℝ (signBit x) with hs | hs
    · rw [hs, one_mul]
    · rw [hs] at hx0 ⊢
      linarith
  refine ⟨h.isRounded ?_, h.signBit_eq⟩
  rw [pow_zero, one_mul, hval]

theorem fprSqrt_spec_one : IsRounded (fprSqrt fprOne) 1 ∧ signBit (fprSqrt fprOne) = 0 := by
  have h := fprSqrt_spec isFpr_fprOne (by rw [value_fprOne]; exact zero_le_one)
  rwa [value_fprOne, Real.sqrt_one] at h

theorem abs_fprValue (x : UInt64) : |fprValue x| = magnitude x := by
  rw [fprValue, abs_mul, abs_pow, abs_neg, abs_one, one_pow, one_mul, abs_of_nonneg (magnitude_nonneg x)]

/-- The order of the absolute values. -/
private theorem absBits_le_of_magnitude {x y : UInt64} (hx : IsFpr x) (h : magnitude x ≤ magnitude y) :
    absBits x ≤ absBits y := by
  by_contra hc
  exact absurd (magnitude_lt hx (not_le.1 hc)) (not_lt.2 h)

/-- A sum is the exact one, rounded; a sum that is zero is negative only if both operands are. -/
theorem fprAdd_rounded {x y : UInt64} (hx : IsFpr x) (hy : IsFpr y)
    (hfit : |fprRound (fprValue x + fprValue y)| < 2 ^ (1024 : ℤ)) : IsRounded (fprAdd x y) (fprValue x + fprValue y) ∧
      (fprValue x + fprValue y = 0 → signBit (fprAdd x y) = signBit x * signBit y) := by
  have hsx := (toNat_eq x).2.1
  have hsy := (toNat_eq y).2.1
  -- the sum of ordered operands
  have hord : ∀ {a b : UInt64}, IsFpr a → IsFpr b → absBits b ≤ absBits a →
      |fprRound (fprValue a + fprValue b)| < 2 ^ (1024 : ℤ) →
      Encodes (addOrdered a b) (signBit a) (fprRound (absSum a b)) ∧
        fprValue a + fprValue b = (-1) ^ signBit a * absSum a b := by
    intro a b ha hb hle hfit
    have hsum : fprValue a + fprValue b = (-1) ^ signBit a * absSum a b := by
      have h1 := (toNat_eq a).2.1
      have h2 := (toNat_eq b).2.1
      unfold absSum fprValue
      split
      · rename_i h
        rw [h]
        ring
      · rename_i h
        obtain ⟨h3, h4⟩ | ⟨h3, h4⟩ : signBit a = 0 ∧ signBit b = 1 ∨ signBit a = 1 ∧ signBit b = 0 := by omega
        · rw [h3, h4]
          ring
        · rw [h3, h4]
          ring
    rw [hsum, fprRound_signed, abs_mul, abs_pow, abs_neg, abs_one, one_pow, one_mul] at hfit
    exact ⟨addOrdered_encodes ha hb hle ((le_abs_self _).trans_lt hfit), hsum⟩
  -- opposite numbers have the same absolute value
  have hzero : fprValue x + fprValue y = 0 → absBits x = absBits y := by
    intro h
    have habs : magnitude x = magnitude y := by
      have := congrArg abs (eq_neg_of_add_eq_zero_left h)
      rwa [abs_neg, abs_fprValue, abs_fprValue] at this
    exact le_antisymm (absBits_le_of_magnitude hx habs.le) (absBits_le_of_magnitude hy habs.ge)
  unfold fprAdd
  simp only
  rw [addSwap_eq]
  by_cases hc : absBits x < absBits y ∨ absBits x = absBits y ∧ signBit x = 1
  · rw [if_pos hc]
    obtain ⟨h1, h2⟩ := hord hy hx (by omega) (by rwa [add_comm])
    refine ⟨h1.isRounded (by rw [add_comm, h2]), fun h => ?_⟩
    have := hzero h
    rw [h1.signBit_eq, show signBit x = 1 by omega, one_mul]
  · rw [if_neg hc]
    obtain ⟨h1, h2⟩ := hord hx hy (by omega) hfit
    refine ⟨h1.isRounded h2, fun h => ?_⟩
    have := hzero h
    rw [h1.signBit_eq, show signBit x = 0 by omega, zero_mul]

end DfVrf.Crypto
