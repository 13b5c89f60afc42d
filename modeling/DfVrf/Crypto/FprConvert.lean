import DfVrf.Crypto.FprArith

/-!
# Conversions and comparisons of floating-point numbers (`fpr.h`)

* `fprRint_spec`, `fprFloor_spec`, `fprTrunc_spec`: the roundings to integers.
* `fprScaled_spec`: the number next to a scaled integer.
* `fprAdd_fprSub_spec`, `fprHalf_fprDouble_iff`: what depends on single fields of an operand.
* `fprLt_spec`: the comparison.
-/

namespace DfVrf.Crypto

open Rounding SignedWords

/-! ### The mantissa and the shift -/

private theorem toNat_mantissa63 (x : UInt64) : (mantissa63 x).toNat = 2 ^ 62 + fracBits x * 2 ^ 10 := by
  have hx := toNat_eq x
  have hshift : (x <<< 10).toNat = x.toNat % 2 ^ 54 * 2 ^ 10 := by
    rw [UInt64.toNat_shiftLeft, Nat.shiftLeft_eq, show (10 : UInt64).toNat % 64 = 10 from rfl]
    omega
  have hlow : (x.toNat % 2 ^ 54 * 2 ^ 10) % 2 ^ 62 = fracBits x * 2 ^ 10 := by omega
  have hand : (x.toNat % 2 ^ 54 * 2 ^ 10 ||| 2 ^ 62) % 2 ^ 63 = 2 ^ 62 + fracBits x * 2 ^ 10 := by
    have h1 : (x.toNat % 2 ^ 54 * 2 ^ 10 ||| 2 ^ 62) % 2 ^ 62 = fracBits x * 2 ^ 10 := by
      rw [Nat.or_mod_two_pow, hlow, Nat.mod_self, Nat.or_zero]
    have h2 : (x.toNat % 2 ^ 54 * 2 ^ 10 ||| 2 ^ 62) / 2 ^ 62 % 2 = 1 := by
      rw [Nat.or_div_two_pow, Nat.or_mod_two_eq_one]
      exact .inr (by norm_num)
    omega
  rw [mantissa63, UInt64.toNat_and, UInt64.toNat_or, hshift, show ((1 : UInt64) <<< 62).toNat = 2 ^ 62 from rfl,
    show (((1 : UInt64) <<< 63) - (1 : UInt64)).toNat = 2 ^ 63 - 1 from rfl, Nat.and_two_pow_sub_one_eq_mod, hand]

/-- The shift to the right that makes an integer of the mantissa. -/
def shiftOf (x : UInt64) : ℤ := 1085 - expBits x

private theorem toInt_shiftOf (x : UInt64) :
    ((1085 : Int32) - ((x >>> 52).toUInt32.toInt32 &&& 0x7FF)).toInt = shiftOf x := by
  have hx := (toNat_eq x).2.2.1
  have h := (toInt_head x).1
  have h1085 : (1085 : Int32).toInt = 1085 := rfl
  rw [toInt_sub_of_le (by omega) (by omega), h1085, h]
  rfl

/-- The absolute value as a quotient. -/
private theorem magnitude_eq_div {x : UInt64} (hx : expBits x ≠ 0) {n : ℕ} (hn : shiftOf x = n) :
    magnitude x = (mantissa63 x).toNat / 2 ^ n := by
  unfold shiftOf at hn
  rw [magnitude_def, if_neg hx, toNat_mantissa63, show (expBits x : ℤ) - 1075 = 10 - n by omega, zpow_sub₀ two_ne_zero,
    zpow_natCast]
  push_cast
  rw [show ((2 : ℝ) ^ (10 : ℤ)) = 2 ^ 10 from zpow_natCast 2 10]
  ring

/-- Numbers below `2 ^ 63` are shifted to the right. -/
private theorem shiftOf_nonneg {x : UInt64} (h : |fprValue x| < 2 ^ 63) : 0 ≤ shiftOf x := by
  rw [abs_fprValue] at h
  unfold shiftOf
  by_contra hc
  have hx0 : expBits x ≠ 0 := by omega
  rw [magnitude_def, if_neg hx0] at h
  have h1 : (2 : ℝ) ^ 63 ≤ (2 ^ 52 + fracBits x : ℕ) * 2 ^ ((expBits x : ℤ) - 1075) := by
    calc (2 : ℝ) ^ 63 = (2 ^ 52 : ℕ) * 2 ^ (11 : ℤ) := by norm_num
      _ ≤ (2 ^ 52 + fracBits x : ℕ) * 2 ^ ((expBits x : ℤ) - 1075) := by
        refine mul_le_mul ?_ (zpow_le_zpow_right₀ one_le_two (by omega)) (zpow_pos two_pos _).le (Nat.cast_nonneg _)
        exact_mod_cast Nat.le_add_right _ _
  linarith

/-- Numbers that are shifted by more than 63 bits are less than a half. -/
private theorem magnitude_lt_half {x : UInt64} (h : 64 ≤ shiftOf x) : magnitude x < 1 / 2 := by
  by_cases hx0 : expBits x = 0
  · rw [magnitude_def, if_pos hx0]
    norm_num
  · obtain ⟨n, hn⟩ : ∃ n : ℕ, shiftOf x = n := ⟨(shiftOf x).toNat, by omega⟩
    have hf := (toNat_eq x).2.2.2
    rw [magnitude_eq_div hx0 hn, div_lt_div_iff₀ (by positivity) two_pos, one_mul, toNat_mantissa63]
    have hpow : 2 ^ 64 ≤ 2 ^ n := Nat.pow_le_pow_right (by norm_num) (by omega)
    exact_mod_cast (by omega : (2 ^ 62 + fracBits x * 2 ^ 10) * 2 < 2 ^ n)

/-! ### Rounding to the nearest integer -/

/-- The count of the shift: its comparison with the width, and its low bits. -/
private theorem toInt_count {x : UInt64} (h : |fprValue x| < 2 ^ 63) : 0 ≤ shiftOf x ∧
    (((1085 : Int32) - ((x >>> 52).toUInt32.toInt32 &&& 0x7FF)) - 64).toInt = shiftOf x - 64 ∧
    ((63 : Int32) - ((1085 : Int32) - ((x >>> 52).toUInt32.toInt32 &&& 0x7FF))).toInt = 63 - shiftOf x ∧
    (((1085 : Int32) - ((x >>> 52).toUInt32.toInt32 &&& 0x7FF)) &&& 63).toInt = shiftOf x % 2 ^ 6 := by
  have h0 := shiftOf_nonneg h
  have hcc := toInt_shiftOf x
  have hle : shiftOf x ≤ 1085 := by
    unfold shiftOf
    omega
  have h64 : (64 : Int32).toInt = 64 := rfl
  have h63 : (63 : Int32).toInt = 63 := rfl
  refine ⟨h0, ?_, ?_, ?_⟩
  · rw [toInt_sub_of_le (by omega) (by omega), hcc, h64]
  · rw [toInt_sub_of_le (by omega) (by omega), hcc, h63]
  · rw [toInt_and_mask _ (k := 6) rfl (by norm_num), hcc]

private theorem expBits_ne_zero {x : UInt64} (h : shiftOf x < 64) : expBits x ≠ 0 := by
  intro hc
  rw [shiftOf, hc] at h
  omega

private theorem top_eq (x : UInt64) : x >>> 63 = if signBit x = 0 then 0 else 1 := by
  have h := (toNat_eq x).2.1
  have h1 : (x >>> 63).toNat = signBit x := by
    rw [UInt64.toNat_shiftRight, Nat.shiftRight_eq_div_pow]
    rfl
  apply UInt64.toNat_inj.1
  rw [h1]
  split
  · rename_i hs
    rw [hs]
    rfl
  · rw [UInt64.toNat_one]
    omega

private theorem toInt64_top (x : UInt64) : (x >>> 63).toInt64 = if signBit x = 0 then 0 else 1 := by
  rw [top_eq]
  split <;> rfl

private theorem toUInt64_top (x : UInt64) : (x >>> 63).toUInt32.toUInt64.toInt64 = if signBit x = 0 then 0 else 1 := by
  rw [top_eq]
  split <;> rfl

/-- A word with the sign of a number, as the conversions apply it. -/
private theorem toInt_applySign {x : UInt64} {t w : Int64} (ht : t = if signBit x = 0 then 0 else 1)
    (hw : 0 ≤ w.toInt) :
    ((w ^^^ -t) + t).toInt = (-1) ^ signBit x * w.toInt := by
  have hs := (toNat_eq x).2.1
  have hlt := Int64.toInt_lt w
  rw [ht, xor_neg_add _ (by split <;> [left; right] <;> rfl)]
  by_cases h0 : signBit x = 0
  · rw [if_pos h0, if_pos rfl, h0, pow_zero, one_mul]
  · rw [if_neg h0, if_neg (by decide), show signBit x = 1 by omega, pow_one, neg_one_mul, Int64.toInt_neg]
    exact Int.bmod_eq_of_le (by omega) (by omega)

private theorem toNat_droppedBits (d : UInt64) : (droppedBits d).toNat = stick d.toNat 61 := by
  have hd := d.toNat_lt
  have hlow : (d.toUInt32).toNat = d.toNat % 2 ^ 32 := UInt64.toNat_toUInt32 d
  have hhigh : ((d >>> 32).toUInt32 &&& 0x1FFFFFFF).toNat = d.toNat / 2 ^ 32 % 2 ^ 29 := by
    rw [UInt32.toNat_and, UInt64.toNat_toUInt32, UInt64.toNat_shiftRight, Nat.shiftRight_eq_div_pow,
      show (32 : UInt64).toNat % 64 = 32 from rfl, show (0x1FFFFFFF : UInt32).toNat = 2 ^ 29 - 1 from rfl,
      Nat.and_two_pow_sub_one_eq_mod]
    omega
  have hzero : d.toUInt32 ||| ((d >>> 32).toUInt32 &&& 0x1FFFFFFF) = 0 ↔ d.toNat % 2 ^ 61 = 0 := by
    rw [← UInt32.toNat_inj, UInt32.toNat_or, UInt32.toNat_zero, Nat.or_eq_zero_iff, hlow, hhigh]
    omega
  have htop : (d >>> 61).toUInt32.toNat = d.toNat / 2 ^ 61 := by
    rw [UInt64.toNat_toUInt32, UInt64.toNat_shiftRight, Nat.shiftRight_eq_div_pow,
      show (61 : UInt64).toNat % 64 = 61 from rfl]
    omega
  unfold droppedBits
  simp only
  rw [or_neg_shiftRight_31, UInt32.toNat_or, htop, stick_eq_or, if_congr hzero rfl rfl]
  congr 1
  split <;> rfl

/-- The three bits by which the shift of `m` by `n` is rounded. -/
private theorem stick_top {m n : ℕ} (hn : n < 64) : stick (m * 2 ^ (63 - n) % 2 ^ 64) 61 = stick (4 * m) n % 8 := by
  obtain ⟨k, hk⟩ : ∃ k, 63 = n + k := ⟨63 - n, by omega⟩
  have hpn : 0 < 2 ^ n := by positivity
  have hpk : 0 < 2 ^ k := by positivity
  -- the word has the bits of `m` up to the bit `n`
  have h64 : 2 ^ 64 = 2 ^ (n + 1) * 2 ^ k := by
    rw [← pow_add]
    congr 1
    omega
  have hword : m * 2 ^ (63 - n) % 2 ^ 64 = m % 2 ^ (n + 1) * 2 ^ k := by
    rw [show 63 - n = k by omega, h64, Nat.mul_mod_mul_right]
  generalize ha : m % 2 ^ (n + 1) = a at hword
  rw [hword]
  have hscale : a * 2 ^ k * 2 ^ n = 4 * a * 2 ^ 61 := by
    rw [mul_assoc, ← pow_add, add_comm k, ← hk]
    ring
  have hdiv : a * 2 ^ k / 2 ^ 61 = 4 * a / 2 ^ n := by
    rw [← Nat.mul_div_mul_right _ _ hpn, hscale, mul_comm (2 ^ 61), Nat.mul_div_mul_right _ _ (by positivity)]
  have hmod : a * 2 ^ k % 2 ^ 61 = 0 ↔ 4 * a % 2 ^ n = 0 := by
    have h1 : a * 2 ^ k % 2 ^ 61 * 2 ^ n = 4 * a % 2 ^ n * 2 ^ 61 := by
      rw [← Nat.mul_mod_mul_right, hscale, mul_comm (2 ^ 61), Nat.mul_mod_mul_right]
    constructor
    · intro h
      rw [h, zero_mul] at h1
      exact (Nat.mul_eq_zero.1 h1.symm).resolve_right (by positivity)
    · intro h
      rw [h, zero_mul] at h1
      exact (Nat.mul_eq_zero.1 h1).resolve_right (by positivity)
  have hm : 4 * m = 4 * a + 2 ^ n * (8 * (m / 2 ^ (n + 1))) := by
    have := Nat.div_add_mod m (2 ^ (n + 1))
    rw [ha] at this
    generalize m / 2 ^ (n + 1) = q at this ⊢
    rw [← this, pow_succ]
    ring
  have hmdiv : 4 * m / 2 ^ n = 4 * a / 2 ^ n + 8 * (m / 2 ^ (n + 1)) := by
    rw [hm, Nat.add_mul_div_left _ _ hpn]
  have hmmod : 4 * m % 2 ^ n = 4 * a % 2 ^ n := by
    rw [hm, Nat.add_mul_mod_self_left]
  have hlt : 4 * a / 2 ^ n < 8 := by
    have : a < 2 ^ (n + 1) := by
      rw [← ha]
      exact Nat.mod_lt _ (by positivity)
    rw [Nat.div_lt_iff_lt_mul hpn, pow_succ] at *
    omega
  unfold stick
  rw [hdiv, if_congr hmod rfl rfl, hmdiv, hmmod]
  split <;> omega

/-- The shift with rounding to nearest even. -/
private theorem roundEven_shift {m : UInt64} {e : Int32} {n : ℕ} (he : e.toInt = n) (hn : n < 64) :
    roundEven ((m.toNat : ℝ) / 2 ^ n) =
      (m.toNat / 2 ^ n + ((0xC8 >>> droppedBits (fprUlsh m (63 - e))) &&& 1 : UInt32).toUInt64.toNat : ℕ) := by
  have h63 : (63 - e).toInt = 63 - n := by
    have : (63 : Int32).toInt = 63 := rfl
    rw [toInt_sub_of_le (by omega) (by omega), this, he]
  have hd := toNat_fprUlsh m (n := 63 - e) (by omega) (by omega)
  rw [h63, show ((63 : ℤ) - n).toNat = 63 - n by omega] at hd
  have hf := toNat_droppedBits (fprUlsh m (63 - e))
  rw [hd, stick_top hn] at hf
  have hsticky : IsSticky ((m.toNat : ℝ) * 4 / 2 ^ n) (stick (4 * m.toNat) n : ℤ) := by
    refine IsSticky.stick (.inl ?_) n
    push_cast
    ring
  have hround : roundEven ((m.toNat : ℝ) / 2 ^ n) = roundEven ((stick (4 * m.toNat) n : ℝ) / 4) := by
    have h := hsticky.roundEven_div even_two two_pos
    have h1 : (m.toNat : ℝ) * 4 / 2 ^ n / (2 * (2 : ℤ)) = m.toNat / 2 ^ n := by
      push_cast
      ring
    rw [h1] at h
    rw [h]
    norm_num
  have hquot : stick (4 * m.toNat) n / 4 = m.toNat / 2 ^ n := by
    have h1 : 4 * m.toNat / 2 ^ n / 4 = m.toNat / 2 ^ n := by
      rw [Nat.div_div_eq_div_mul, mul_comm (2 ^ n), Nat.mul_div_mul_left _ _ (by norm_num)]
    rw [← h1]
    unfold stick
    split <;> omega
  rw [hround, roundEven_div_four, hquot, table_bit (by rw [hf]; exact Nat.mod_lt _ (by norm_num)), hf]
  congr 2
  split <;> rfl

/-- The rounded absolute value of a number that the shift leaves in the word. -/
private theorem toNat_rounded {x : UInt64} {n : ℕ} (hx : expBits x ≠ 0) (hn : shiftOf x = n) (hlt : n < 64) {e : Int32}
    (he : e.toInt = n) {m : UInt64} (hm : fprUrsh (mantissa63 x) e +
      ((0xC8 >>> droppedBits (fprUlsh (mantissa63 x) (63 - e))) &&& 1 : UInt32).toUInt64 = m) :
    roundEven (magnitude x) = m.toNat ∧ m.toNat < 2 ^ 63 := by
  have hsx := toNat_eq x
  have hm63 := toNat_mantissa63 x
  have hround := roundEven_shift (m := mantissa63 x) he hlt
  rw [← magnitude_eq_div hx hn] at hround
  rw [← hm, hround, UInt64.toNat_add, toNat_fprUrsh _ (by omega) (by omega), show e.toInt.toNat = n by omega]
  have hbit : ((0xC8 >>> droppedBits (fprUlsh (mantissa63 x) (63 - e))) &&& 1 : UInt32).toUInt64.toNat ≤ 1 := by
    rw [UInt32.toNat_toUInt64, UInt32.toNat_and, UInt32.toNat_one, Nat.and_one_is_mod]
    omega
  generalize ((0xC8 >>> droppedBits (fprUlsh (mantissa63 x) (63 - e))) &&& 1 : UInt32).toUInt64.toNat =
    b at hround hbit ⊢
  have hsum : (mantissa63 x).toNat / 2 ^ n + b < 2 ^ 63 := by
    rcases Nat.eq_zero_or_pos n with rfl | hpos
    · -- an integer is not rounded
      rw [magnitude_eq_div hx hn, pow_zero, div_one, pow_zero, Nat.div_one,
        show ((mantissa63 x).toNat : ℝ) =
          (((mantissa63 x).toNat : ℤ) : ℝ) by push_cast; rfl, roundEven_intCast] at hround
      rw [pow_zero, Nat.div_one]
      omega
    · have : (mantissa63 x).toNat / 2 ^ n ≤ (mantissa63 x).toNat / 2 ^ 1 :=
        Nat.div_le_div_left (Nat.pow_le_pow_right (by norm_num) hpos) (by norm_num)
      omega
  rw [Nat.mod_eq_of_lt (by omega)]
  exact ⟨rfl, hsum⟩

/-- A number below one half is rounded to zero. -/
private theorem roundEven_of_lt_half {v : ℝ} (h0 : 0 ≤ v) (h : v < 1 / 2) : roundEven v = 0 := by
  refine roundEven_eq ?_ ?_
  · push_cast
    rw [sub_zero, abs_of_nonneg h0]
    exact h.le
  · intro hc
    push_cast at hc
    rw [sub_zero, abs_of_nonneg h0] at hc
    exact absurd hc h.ne

theorem toInt_fprRint {x : UInt64} (h : |fprValue x| < 2 ^ 63) : (fprRint x).toInt = roundEven (fprValue x) := by
  obtain ⟨h0, h64, -, hlow⟩ := toInt_count h
  -- the absolute value of the result
  have habs : ∃ m : UInt64, fprRint x = (m.toInt64 ^^^ -(x >>> 63).toUInt32.toUInt64.toInt64) +
      (x >>> 63).toUInt32.toUInt64.toInt64 ∧ roundEven (magnitude x) = m.toNat ∧ m.toNat < 2 ^ 63 := by
    refine ⟨_, rfl, ?_⟩
    rw [toUInt32_shiftRight_31, h64]
    generalize ((1085 : Int32) - ((x >>> 52).toUInt32.toInt32 &&& 0x7FF)) &&& 63 = e at hlow ⊢
    split
    · obtain ⟨n, hn⟩ : ∃ n : ℕ, shiftOf x = n := ⟨(shiftOf x).toNat, by omega⟩
      rw [show -(1 : UInt32).toUInt64 = -1 from rfl, UInt64.and_neg_one]
      exact toNat_rounded (expBits_ne_zero (by omega)) hn (by omega) (by omega) rfl
    · have hzero : ∀ k : Int32, fprUlsh 0 k = 0 ∧ fprUrsh 0 k = 0 := by
        intro k
        unfold fprUlsh fprUrsh
        simp
      rw [show -(0 : UInt32).toUInt64 = 0 from rfl, UInt64.and_zero, (hzero _).1, (hzero _).2,
        roundEven_of_lt_half (magnitude_nonneg x) (magnitude_lt_half (by omega))]
      exact ⟨by decide, by decide⟩
  obtain ⟨m, hres, hround, hlt⟩ := habs
  have hmi : m.toInt64.toInt = m.toNat := toInt_toInt64_of_lt hlt
  rw [hres, toInt_applySign (toUInt64_top x) (by omega), hmi, ← hround, fprValue]
  obtain hs | hs : signBit x = 0 ∨ signBit x = 1 := by
    have := (toNat_eq x).2.1
    omega
  · rw [hs, pow_zero, pow_zero, one_mul, one_mul]
  · rw [hs, pow_one, pow_one, neg_one_mul, neg_one_mul, roundEven_neg]

/-- The result is the nearest integer, the even one of two. -/
theorem fprRint_spec {x : UInt64} (h : |fprValue x| < 2 ^ 63) : (fprRint x).toInt = roundEven (fprValue x) ∧
    ∀ z : ℤ, |fprValue x - (fprRint x).toInt| ≤ |fprValue x - z| := by
  have hr := toInt_fprRint h
  refine ⟨hr, fun z => ?_⟩
  rw [hr]
  exact abs_sub_roundEven_le_abs_sub _ z

theorem fprRint_spec_one : (fprRint fprOne).toInt = 1 ∧
    ∀ z : ℤ, |1 - ((fprRint fprOne).toInt : ℝ)| ≤ |1 - (z : ℝ)| := by
  obtain ⟨h, hnear⟩ := fprRint_spec abs_fprOne_lt
  rw [value_fprOne] at hnear
  rw [value_fprOne, ← Int.cast_one, roundEven_intCast] at h
  exact ⟨h, hnear⟩

/-! ### The floor and the truncation -/

private theorem toInt_fprIrsh (x : Int64) {n : Int32} (h0 : 0 ≤ n.toInt) (h : n.toInt < 64) :
    (fprIrsh x n).toInt = x.toInt / 2 ^ n.toInt.toNat := by
  have h5 := toInt_shiftRight_of_lt n (n := 5) (by decide) (by decide)
  rw [show (5 : Int32).toInt.toNat = 5 from rfl] at h5
  have hlow : (n &&& 31).toInt64.toInt = n.toInt % 2 ^ 5 := by
    rw [Int32.toInt_toInt64, toInt_and_mask n (k := 5) rfl (by norm_num)]
  have hlt : n.toInt % 2 ^ 5 < 32 := Int.emod_lt_of_pos _ (by norm_num)
  have hge : 0 ≤ n.toInt % 2 ^ 5 := Int.emod_nonneg _ (by norm_num)
  unfold fprIrsh
  simp only
  rw [toInt_shiftRight_of_lt_64 _ (by omega) (by omega), hlow]
  by_cases hn : n.toInt < 32
  · have hz : n >>> 5 = 0 := Int32.toInt_inj.1 (by rw [h5, Int32.toInt_zero]; omega)
    rw [hz, show -(0 : Int32).toInt64 = 0 from rfl, Int64.and_zero, Int64.xor_zero,
      show n.toInt % 2 ^ 5 = n.toInt by omega]
  · have hz : n >>> 5 = 1 := Int32.toInt_inj.1 (by rw [h5, show (1 : Int32).toInt = 1 from rfl]; omega)
    rw [hz, show -(1 : Int32).toInt64 = -1 from rfl, xor_and_neg_one_signed,
      toInt_shiftRight_of_lt_64 _ (by decide) (by decide), show (32 : Int64).toInt.toNat = 32 from rfl,
      Int.ediv_ediv_of_nonneg (by positivity), ← pow_add]
    congr 2
    omega

/-- The floor of a quotient by a power of two. -/
private theorem floor_div_two_pow (a : ℤ) (n : ℕ) : ⌊(a : ℝ) / 2 ^ n⌋ = a / 2 ^ n := by
  have hpos : (0 : ℝ) < 2 ^ n := by positivity
  have h1 : a / 2 ^ n * 2 ^ n ≤ a := Int.ediv_mul_le a (by positivity)
  have h2 : a < (a / 2 ^ n + 1) * 2 ^ n := Int.lt_ediv_add_one_mul_self a (by positivity)
  rw [Int.floor_eq_iff, le_div_iff₀ hpos, div_lt_iff₀ hpos]
  exact ⟨by exact_mod_cast h1, by exact_mod_cast h2⟩

/-- The floor of a number below one half in absolute value. -/
private theorem floor_of_small {x : UInt64} (h : magnitude x < 1 / 2) (hne : fprValue x ≠ 0) :
    ⌊fprValue x⌋ = -(signBit x : ℤ) := by
  have hpos := magnitude_nonneg x
  rw [Int.floor_eq_iff]
  obtain hs | hs : signBit x = 0 ∨ signBit x = 1 := by
    have := (toNat_eq x).2.1
    omega
  · rw [fprValue, hs, pow_zero, one_mul]
    push_cast
    constructor <;> linarith
  · rw [fprValue, hs, pow_one, neg_one_mul] at hne ⊢
    have hpos' : 0 < magnitude x := lt_of_le_of_ne hpos (fun hc => hne (by rw [← hc, neg_zero]))
    push_cast
    constructor <;> linarith

/-- The floor, where a negative zero gives `-1`. -/
theorem fprFloor_spec {x : UInt64} (h : |fprValue x| < 2 ^ 63) :
    (fprFloor x).toInt = if fprValue x = 0 then -(signBit x : ℤ) else ⌊fprValue x⌋ := by
  obtain ⟨h0, -, h63, hlow⟩ := toInt_count h
  have hsx := toNat_eq x
  have hm := toNat_mantissa63 x
  have hmi : (mantissa63 x).toInt64.toInt = (mantissa63 x).toNat := toInt_toInt64_of_lt (by omega)
  unfold fprFloor
  simp only
  rw [toUInt32_shiftRight_31, h63]
  have hshift := toInt_fprIrsh (((mantissa63 x).toInt64 ^^^ -(x >>> 63).toInt64) + (x >>> 63).toInt64)
    (n := ((1085 : Int32) - ((x >>> 52).toUInt32.toInt32 &&& 0x7FF)) &&& 63) (by omega) (by omega)
  rw [toInt_applySign (toInt64_top x) (by omega), hmi, hlow] at hshift
  generalize fprIrsh _ _ = xi at hshift ⊢
  by_cases hc : shiftOf x < 64
  · obtain ⟨n, hn⟩ : ∃ n : ℕ, shiftOf x = n := ⟨(shiftOf x).toNat, by omega⟩
    have hmag := magnitude_eq_div (expBits_ne_zero hc) hn
    have hne : fprValue x ≠ 0 := by
      rw [← abs_pos, abs_fprValue, hmag]
      have : (0 : ℝ) < (mantissa63 x).toNat := by exact_mod_cast (by omega : 0 < (mantissa63 x).toNat)
      positivity
    have hcount : (shiftOf x % 2 ^ 6).toNat = n := by omega
    rw [if_neg (by omega), show -(0 : UInt32).toUInt64.toInt64 = 0 from rfl, Int64.and_zero, Int64.xor_zero, hshift,
      if_neg hne, fprValue, hmag, hcount, ← floor_div_two_pow]
    refine congrArg Int.floor ?_
    push_cast
    ring
  · -- every bit is dropped, and the sign is left
    have hsign : (-(x >>> 63).toInt64).toInt = -(signBit x : ℤ) := by
      rw [toInt64_top]
      split
      · rename_i hs
        rw [hs]
        rfl
      · rw [show signBit x = 1 by omega]
        rfl
    rw [if_pos (by omega), show -(1 : UInt32).toUInt64.toInt64 = -1 from rfl, xor_and_neg_one_signed, hsign]
    split
    · rfl
    · rename_i hne
      exact (floor_of_small (magnitude_lt_half (by omega)) hne).symm

theorem fprFloor_spec_one : (fprFloor fprOne).toInt = 1 := by
  have h := fprFloor_spec abs_fprOne_lt
  rwa [value_fprOne, if_neg one_ne_zero, Int.floor_one] at h

/-- The truncation drops the fraction of the absolute value. -/
theorem toInt_fprTrunc {x : UInt64} (h : |fprValue x| < 2 ^ 63) :
    (fprTrunc x).toInt = if 0 ≤ fprValue x then ⌊fprValue x⌋ else ⌈fprValue x⌉ := by
  obtain ⟨h0, hsub, -, hlow⟩ := toInt_count h
  have hsx := toNat_eq x
  have hm := toNat_mantissa63 x
  have hmag0 := magnitude_nonneg x
  have hshift := toNat_fprUrsh (mantissa63 x)
    (n := ((1085 : Int32) - ((x >>> 52).toUInt32.toInt32 &&& 0x7FF)) &&& 63) (by omega) (by omega)
  rw [hlow] at hshift
  -- the absolute value of the result
  have habs : ∃ m : UInt64, fprTrunc x = ((m ^^^ -(x >>> 63)) + (x >>> 63)).toInt64 ∧ (m.toNat : ℤ) = ⌊magnitude x⌋ ∧
      m.toNat < 2 ^ 63 := by
    refine ⟨_, rfl, ?_⟩
    rw [toUInt32_shiftRight_31, hsub]
    split
    · obtain ⟨n, hn⟩ : ∃ n : ℕ, shiftOf x = n := ⟨(shiftOf x).toNat, by omega⟩
      have hcount : (shiftOf x % 2 ^ 6).toNat = n := by omega
      rw [show -(1 : UInt32).toUInt64 = -1 from rfl, UInt64.and_neg_one, hshift, hcount,
        magnitude_eq_div (expBits_ne_zero (by omega)) hn]
      have hfloor := floor_div_two_pow (mantissa63 x).toNat n
      refine ⟨?_, (Nat.div_le_self _ _).trans_lt (by omega)⟩
      push_cast at hfloor ⊢
      exact hfloor.symm
    · have hsmall := magnitude_lt_half (x := x) (by omega)
      rw [show -(0 : UInt32).toUInt64 = 0 from rfl, UInt64.and_zero]
      refine ⟨?_, by decide⟩
      symm
      rw [Int.floor_eq_iff]
      push_cast
      constructor <;> linarith
  obtain ⟨m, hres, hfloor, hlt⟩ := habs
  have hmi : m.toInt64.toInt = m.toNat := toInt_toInt64_of_lt hlt
  have happly : (fprTrunc x).toInt = (-1) ^ signBit x * ⌊magnitude x⌋ := by
    rw [← hfloor, ← hmi, ← toInt_applySign (toInt64_top x) (by omega), hres]
    rfl
  rw [happly, fprValue]
  obtain hs | hs : signBit x = 0 ∨ signBit x = 1 := by omega
  · rw [hs, pow_zero, pow_zero, one_mul, one_mul, if_pos hmag0]
  · rw [hs, pow_one, pow_one, neg_one_mul, neg_one_mul]
    split
    · rename_i h1
      have h2 : magnitude x = 0 := by linarith
      rw [h2, Int.floor_zero, neg_zero, neg_zero, Int.floor_zero]
    · rw [Int.ceil_neg]

/-- The result is the integral part, and never farther from zero than the operand. -/
theorem fprTrunc_spec {x : UInt64} (h : |fprValue x| < 2 ^ 63) :
    (fprTrunc x).toInt = (if 0 ≤ fprValue x then ⌊fprValue x⌋ else ⌈fprValue x⌉) ∧
      |((fprTrunc x).toInt : ℝ)| ≤ |fprValue x| := by
  have ht := toInt_fprTrunc h
  refine ⟨ht, ?_⟩
  rw [ht]
  split
  · rename_i hnn
    have hfl : (0 : ℝ) ≤ ⌊fprValue x⌋ := by exact_mod_cast Int.floor_nonneg.2 hnn
    rw [abs_of_nonneg hfl, abs_of_nonneg hnn]
    exact Int.floor_le _
  · rename_i hneg
    have hce : (⌈fprValue x⌉ : ℝ) ≤ 0 := by exact_mod_cast Int.ceil_le.2 (by push_cast; linarith)
    rw [abs_of_nonpos hce, abs_of_neg (not_le.1 hneg), neg_le_neg_iff]
    exact Int.le_ceil _

theorem fprTrunc_spec_one : (fprTrunc fprOne).toInt = 1 ∧ |((fprTrunc fprOne).toInt : ℝ)| ≤ 1 := by
  obtain ⟨h, hle⟩ := fprTrunc_spec abs_fprOne_lt
  rw [value_fprOne, abs_one] at hle
  rw [value_fprOne, if_pos zero_le_one, Int.floor_one] at h
  exact ⟨h, hle⟩

/-! ### The operations on the fields -/

private theorem fprNeg_fields (y : UInt64) :
    signBit (fprNeg y) = 1 - signBit y ∧ expBits (fprNeg y) = expBits y ∧ fracBits (fprNeg y) = fracBits y := by
  obtain ⟨hy, hs, he, hf⟩ := toNat_eq y
  have hlow : (fprNeg y).toNat % 2 ^ 63 = y.toNat % 2 ^ 63 := by
    rw [fprNeg, UInt64.toNat_xor, Nat.xor_mod_two_pow, show ((1 : UInt64) <<< 63).toNat = 2 ^ 63 from rfl, Nat.mod_self,
      Nat.xor_zero]
  have htop : (fprNeg y).toNat / 2 ^ 63 = 1 - signBit y := by
    rw [fprNeg, UInt64.toNat_xor, Nat.xor_div_two_pow, show ((1 : UInt64) <<< 63).toNat / 2 ^ 63 = 1 from rfl]
    change signBit y ^^^ 1 = _
    obtain h | h : signBit y = 0 ∨ signBit y = 1 := by omega
    · rw [h]
      rfl
    · rw [h]
      rfl
  exact fields_eq _ _ _ he hf (by omega)

theorem fprNeg_spec (y : UInt64) : (IsFpr y → IsFpr (fprNeg y)) ∧ fprValue (fprNeg y) = -fprValue y := by
  obtain ⟨hs, he, hf⟩ := fprNeg_fields y
  refine ⟨fun h => ⟨by rw [he]; exact h.finite, by rw [he, hf]; exact h.normal⟩, ?_⟩
  have h1 := (toNat_eq y).2.1
  rw [fprValue, fprValue, magnitude_def, magnitude_def, he, hf, hs]
  obtain h | h : signBit y = 0 ∨ signBit y = 1 := by omega
  · rw [h, pow_zero, one_mul, Nat.sub_zero, pow_one, neg_one_mul]
  · rw [h, Nat.sub_self, pow_zero, one_mul, pow_one, neg_one_mul, neg_neg]

/-- Sums and differences are the exact ones, rounded.  A sum that is zero is negative only if both operands are, a
difference only if the first operand is and the second is not. -/
theorem fprAdd_fprSub_spec {x y : UInt64} (hx : IsFpr x) (hy : IsFpr y) :
    (|fprRound (fprValue x + fprValue y)| < 2 ^ (1024 : ℤ) → IsRounded (fprAdd x y) (fprValue x + fprValue y) ∧
      (fprValue x + fprValue y = 0 → signBit (fprAdd x y) = signBit x * signBit y)) ∧
    (|fprRound (fprValue x - fprValue y)| < 2 ^ (1024 : ℤ) → IsRounded (fprSub x y) (fprValue x - fprValue y) ∧
      (fprValue x - fprValue y = 0 → signBit (fprSub x y) = signBit x * (1 - signBit y))) := by
  obtain ⟨hneg, hval⟩ := fprNeg_spec y
  refine ⟨fun hadd => fprAdd_rounded hx hy hadd, fun hsub => ?_⟩
  have h := fprAdd_rounded hx (hneg hy) (by rwa [hval, ← sub_eq_add_neg])
  rwa [hval, ← sub_eq_add_neg, (fprNeg_fields y).1] at h

theorem fprAdd_fprSub_spec_one : IsRounded (fprAdd fprOne fprOne) (1 + 1) ∧ IsRounded (fprSub fprOne fprOne) 0 ∧
    signBit (fprSub fprOne fprOne) = 0 := by
  obtain ⟨hadd, hsub⟩ := fprAdd_fprSub_spec isFpr_fprOne isFpr_fprOne
  have hsum := hadd (abs_fprRound_lt (by rw [value_fprOne]; norm_num))
  have hdiff := hsub (abs_fprRound_lt (by rw [value_fprOne]; norm_num))
  rw [value_fprOne] at hsum
  rw [value_fprOne, sub_self] at hdiff
  exact ⟨hsum.1, hdiff.1, (hdiff.2 rfl).trans (by decide)⟩

private theorem toNat_exp (x : UInt64) : ((x >>> 52).toUInt32 &&& 0x7FF).toNat = expBits x := by
  have hx := x.toNat_lt
  rw [UInt32.toNat_and, UInt64.toNat_toUInt32, UInt64.toNat_shiftRight, Nat.shiftRight_eq_div_pow,
    show (52 : UInt64).toNat % 64 = 52 from rfl, show (0x7FF : UInt32).toNat = 2 ^ 11 - 1 from rfl,
    Nat.and_two_pow_sub_one_eq_mod]
  unfold expBits
  omega

/-- The carry out of the exponent. -/
private theorem exp_carry {w c : UInt32} {e k : ℕ} (hw : w.toNat = e) (hc : c.toNat = k) (he : e < 2 ^ 11)
    (hk : k < 2 ^ 11) :
    (w + c) >>> 11 = if 2 ^ 11 ≤ e + k then 1 else 0 := by
  apply UInt32.toNat_inj.1
  rw [UInt32.toNat_shiftRight, Nat.shiftRight_eq_div_pow, show (11 : UInt32).toNat % 32 = 11 from rfl,
    UInt32.toNat_add, hw, hc]
  split
  · rw [UInt32.toNat_one]
    omega
  · rw [UInt32.toNat_zero]
    omega

private theorem fprHalf_eq (x : UInt64) :
    fprHalf x = if expBits (x - ((1 : UInt64) <<< 52)) = 2047 then (0 : UInt64) else x - ((1 : UInt64) <<< 52) := by
  have he := (toNat_eq (x - ((1 : UInt64) <<< 52))).2.2.1
  unfold fprHalf
  simp only
  rw [exp_carry (toNat_exp _) UInt32.toNat_one he (by norm_num)]
  split
  · rw [if_pos (by omega), show (1 : UInt32).toUInt64 - 1 = 0 from rfl, UInt64.and_zero]
  · rw [if_neg (by omega), show (0 : UInt32).toUInt64 - 1 = -1 from rfl, UInt64.and_neg_one]

private theorem fprDouble_eq (x : UInt64) : fprDouble x = if expBits x = 0 then x else x + ((1 : UInt64) <<< 52) := by
  have he := (toNat_eq x).2.2.1
  unfold fprDouble
  rw [exp_carry (toNat_exp x) (show (0x7FF : UInt32).toNat = 2047 from rfl) he (by norm_num)]
  split
  · rw [if_neg (by omega)]
    rfl
  · rw [if_pos (by omega), show (0 : UInt32).toUInt64 <<< 52 = 0 from rfl, UInt64.add_zero]

/-- A change of the exponent. -/
private theorem value_of_fields {x y : UInt64} (hx0 : expBits x ≠ 0) (hs : signBit y = signBit x)
    (hf : fracBits y = fracBits x)
    (hy0 : expBits y ≠ 0) : fprValue y = fprValue x * 2 ^ ((expBits y : ℤ) - expBits x) := by
  rw [fprValue, fprValue, magnitude_def, magnitude_def, if_neg hx0, if_neg hy0, hs, hf, mul_assoc, mul_assoc,
    ← zpow_add₀ two_ne_zero]
  congr 3
  ring

/-- The half and the double are exact unless the exponent leaves its range. -/
theorem fprHalf_fprDouble_iff {x : UInt64} (hx : IsFpr x) :
    (IsFpr (fprHalf x) ∧ fprValue (fprHalf x) = fprValue x / 2 ↔ expBits x ≠ 1) ∧
      (IsFpr (fprDouble x) ∧ fprValue (fprDouble x) = 2 * fprValue x ↔ expBits x ≠ 2046) := by
  obtain ⟨hxe, hs, he, hf⟩ := toNat_eq x
  have hfin := hx.finite
  have hone : ((1 : UInt64) <<< 52).toNat = 2 ^ 52 := rfl
  by_cases hx0 : expBits x = 0
  · have hfrac := hx.normal hx0
    have hval : fprValue x = 0 := by rw [fprValue, magnitude_def, if_pos hx0, mul_zero]
    -- a zero has no exponent to decrease
    have hsub : (x - ((1 : UInt64) <<< 52)).toNat = (x.toNat + (2 ^ 64 - 2 ^ 52)) % 2 ^ 64 := by
      rw [UInt64.toNat_sub, hone, Nat.add_comm]
    have hexp : expBits (x - ((1 : UInt64) <<< 52)) = 2047 := by
      unfold expBits
      omega
    have hzero : IsFpr 0 ∧ fprValue 0 = 0 := by
      refine ⟨⟨by decide, by decide⟩, ?_⟩
      rw [fprValue, magnitude_def, if_pos (by decide), mul_zero]
    rw [fprHalf_eq, fprDouble_eq, if_pos hexp, if_pos hx0, hval, zero_div, mul_zero]
    exact ⟨iff_of_true hzero (by omega), iff_of_true ⟨hx, rfl⟩ (by omega)⟩
  · have hle : ((1 : UInt64) <<< 52) ≤ x := by
      rw [UInt64.le_iff_toNat_le, hone]
      omega
    obtain ⟨h1, h2, h3⟩ := fields_eq (x := x - ((1 : UInt64) <<< 52)) (signBit x) (expBits x - 1)
      (fracBits x) (by omega) hf
      (by rw [UInt64.toNat_sub_of_le _ _ hle, hone]; omega)
    obtain ⟨g1, g2, g3⟩ := fields_eq (x := x + ((1 : UInt64) <<< 52)) (signBit x) (expBits x + 1)
      (fracBits x) (by omega) hf
      (by rw [UInt64.toNat_add, hone]; omega)
    have hne : fprValue x ≠ 0 := by
      have hpos : (0 : ℝ) < (2 ^ 52 + fracBits x : ℕ) := by exact_mod_cast Nat.add_pos_left (by norm_num) _
      rw [← abs_pos, abs_fprValue, magnitude_def, if_neg hx0]
      exact mul_pos hpos (zpow_pos two_pos _)
    rw [fprHalf_eq, fprDouble_eq, if_neg (by omega), if_neg hx0]
    constructor
    · constructor
      · rintro ⟨-, hval⟩ hc
        rw [fprValue, magnitude_def, if_pos (by omega), mul_zero] at hval
        exact hne (by linarith)
      · intro hc
        refine ⟨⟨by omega, by omega⟩, ?_⟩
        rw [value_of_fields hx0 h1 h3 (by omega), h2,
          show ((expBits x - 1 : ℕ) : ℤ) - expBits x = -1 by omega, zpow_neg_one,
          div_eq_mul_inv]
    · constructor
      · rintro ⟨hfpr, -⟩ hc
        have := hfpr.finite
        omega
      · intro hc
        refine ⟨⟨by omega, by omega⟩, ?_⟩
        rw [value_of_fields hx0 g1 g3 (by omega), g2, show ((expBits x + 1 : ℕ) : ℤ) - expBits x = 1 by omega, zpow_one,
          mul_comm]

theorem fprHalf_fprDouble_iff_one : IsFpr (fprHalf fprOne) ∧ fprValue (fprDouble fprOne) = 2 * fprValue fprOne := by
  obtain ⟨h1, h2⟩ := fprHalf_fprDouble_iff isFpr_fprOne
  exact ⟨(h1.2 (by decide)).1, (h2.2 (by decide)).2⟩

/-- An integer, scaled by a power of two, is rounded. -/
theorem fprScaled_spec {i : Int64} {sc : Int32} (hi : -2 ^ 63 < i.toInt) (hsc : |sc.toInt| ≤ 9000)
    (hfit : |fprRound (i.toInt * 2 ^ sc.toInt)| < 2 ^ (1024 : ℤ)) : IsRounded (fprScaled i sc)
      (i.toInt * 2 ^ sc.toInt) ∧
      signBit (fprScaled i sc) = if i.toInt < 0 then 1 else 0 := by
  have hval : (i.toInt : ℝ) * 2 ^ sc.toInt = (-1) ^
    (if i.toInt < 0 then 1 else 0) * (|(i.toInt : ℝ)| * 2 ^ sc.toInt) := by
    split
    · rename_i h
      rw [abs_of_neg (by exact_mod_cast h)]
      ring
    · rename_i h
      rw [abs_of_nonneg (by exact_mod_cast not_lt.1 h)]
      ring
  rw [hval, fprRound_signed, abs_mul, abs_pow, abs_neg, abs_one, one_pow, one_mul] at hfit
  have h := fprScaled_encodes hi hsc ((le_abs_self _).trans_lt hfit)
  exact ⟨h.isRounded hval, h.signBit_eq⟩

theorem fprScaled_spec_one : IsRounded (fprScaled 1 0) 1 ∧ signBit (fprScaled 1 0) = 0 := by
  have hone : ((1 : Int64).toInt : ℝ) * 2 ^ (0 : Int32).toInt = 1 := by
    rw [show (1 : Int64).toInt = 1 from rfl, show (0 : Int32).toInt = 0 from rfl]
    norm_num
  have h := fprScaled_spec (show -2 ^ 63 < (1 : Int64).toInt by decide) (show |(0 : Int32).toInt| ≤ 9000 by decide)
    (abs_fprRound_lt (by rw [hone]; norm_num))
  rwa [hone] at h

/-! ### The comparison -/

/-- The encodings as signed integers. -/
private theorem toInt_word (x : UInt64) : x.toInt64.toInt = absBits x - signBit x * 2 ^ 63 := by
  have hx := x.toNat_lt
  have h : x.toInt64.toInt = (x.toNat : ℤ).bmod (2 ^ 64) := BitVec.toInt_eq_toNat_bmod x.toBitVec
  unfold absBits signBit
  rw [h, Int.bmod_def]
  split <;> omega

theorem magnitude_lt_iff {x y : UInt64} (hx : IsFpr x) (hy : IsFpr y) : magnitude x < magnitude y ↔
    absBits x < absBits y :=
  ⟨fun h => not_le.1 fun hc => absurd h (not_lt.2 ((hc.lt_or_eq).elim (fun hlt => (magnitude_lt hx hlt).le)
    (fun heq => (magnitude_eq_of_absBits heq).le))), magnitude_lt hy⟩

/-- The comparison of the words is that of the numbers, except that a negative zero is less than a positive one. -/
theorem fprLt_spec {x y : UInt64} (hx : IsFpr x) (hy : IsFpr y) :
    fprLt x y = if fprValue x < fprValue y ∨
      (fprValue x = 0 ∧ fprValue y = 0 ∧ signBit y < signBit x) then 1 else 0 := by
  have hxw := toInt_word x
  have hyw := toInt_word y
  have hxs := (toNat_eq x).2.1
  have hys := (toNat_eq y).2.1
  have hxb : absBits x < 2 ^ 63 := Nat.mod_lt _ (by norm_num)
  have hyb : absBits y < 2 ^ 63 := Nat.mod_lt _ (by norm_num)
  have hlt := magnitude_lt_iff hx hy
  have hgt := magnitude_lt_iff hy hx
  have hx0 := magnitude_nonneg x
  have hy0 := magnitude_nonneg y
  have hand : ((x &&& y) >>> 63).toUInt32.toInt32 = if signBit x = 1 ∧ signBit y = 1 then 1 else 0 := by
    rw [UInt64.shiftRight_and, top_eq, top_eq]
    obtain h1 | h1 : signBit x = 0 ∨ signBit x = 1 := by omega
    all_goals
      obtain h2 | h2 : signBit y = 0 ∨ signBit y = 1 := by omega
      all_goals
        rw [h1, h2]
        rfl
  -- the order of the words is turned if both are negative
  have hres : fprLt x y = if (if signBit x = 1 ∧ signBit y = 1 then y.toInt64 < x.toInt64 else x.toInt64 < y.toInt64)
      then 1 else 0 := by
    unfold fprLt
    simp only [gt_iff_lt, hand]
    by_cases hneg : signBit x = 1 ∧ signBit y = 1
    · simp only [if_pos hneg]
      by_cases h1 : x.toInt64 < y.toInt64 <;> by_cases h2 : y.toInt64 < x.toInt64 <;> simp only [h1, h2,
        if_true, if_false]
        <;> rfl
    · simp only [if_neg hneg, Int32.and_zero, Int32.xor_zero]
  rw [hres]
  refine if_congr ?_ rfl rfl
  simp only [Int64.lt_iff_toInt_lt, hxw, hyw, fprValue]
  obtain h1 | h1 : signBit x = 0 ∨ signBit x = 1 := by omega
  · obtain h2 | h2 : signBit y = 0 ∨ signBit y = 1 := by omega
    · rw [h1, h2, if_neg (by decide), pow_zero, one_mul, one_mul, hlt]
      omega
    · rw [h1, h2, if_neg (by decide), pow_zero, one_mul, pow_one, neg_one_mul]
      constructor
      · intro h
        omega
      · rintro (h | ⟨-, -, h⟩)
        · linarith
        · omega
  · obtain h2 | h2 : signBit y = 0 ∨ signBit y = 1 := by omega
    · rw [h1, h2, if_neg (by decide), pow_zero, one_mul, pow_one, neg_one_mul, neg_eq_zero]
      refine iff_of_true (by omega) ?_
      rcases hx0.eq_or_lt with hz | hpos
      · rcases hy0.eq_or_lt with hz' | hpos'
        · exact .inr ⟨hz.symm, hz'.symm, Nat.zero_lt_one⟩
        · exact .inl (by linarith)
      · exact .inl (by linarith)
    · rw [h1, h2, if_pos ⟨rfl, rfl⟩, pow_one, neg_one_mul, neg_one_mul, neg_lt_neg_iff, hgt]
      omega

theorem fprLt_spec_zero_one : fprLt 0 fprOne = 1 := by
  have hzero : fprValue 0 = 0 := by
    rw [fprValue, magnitude_def, if_pos (by decide), mul_zero]
  have h := fprLt_spec (x := 0) ⟨by decide, by decide⟩ isFpr_fprOne
  rwa [hzero, value_fprOne, if_pos (.inl one_pos)] at h

end DfVrf.Crypto
