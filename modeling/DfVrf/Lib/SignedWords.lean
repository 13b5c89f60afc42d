import Mathlib.Algebra.Ring.Int.Defs
import Mathlib.Algebra.Ring.Nat

/-!
# Signed words and masks

The integers that signed words hold, the conversions between signed and unsigned words, and selections by masks.
-/

namespace SignedWords

theorem toNat_toUInt64 (x : Int64) : (x.toUInt64.toNat : ℤ) = x.toInt % 2 ^ 64 := by
  have h := BitVec.toInt_eq_toNat_cond x.toBitVec
  have hlt := x.toUInt64.toNat_lt
  rw [Int64.toInt_toBitVec, show x.toBitVec.toNat = x.toUInt64.toNat from rfl] at h
  split at h <;> omega

theorem toNat_toUInt32_of_nonneg {e : Int32} (h : 0 ≤ e.toInt) : (e.toUInt32.toNat : ℤ) = e.toInt := by
  have h1 := BitVec.toInt_eq_toNat_cond e.toBitVec
  rw [Int32.toInt_toBitVec, show e.toBitVec.toNat = e.toUInt32.toNat from rfl] at h1
  have := e.toUInt32.toNat_lt
  split at h1 <;> omega

private theorem toNat_toUInt32_of_neg {e : Int32} (h : e.toInt < 0) : (e.toUInt32.toNat : ℤ) = e.toInt + 2 ^ 32 := by
  have h1 := BitVec.toInt_eq_toNat_cond e.toBitVec
  rw [Int32.toInt_toBitVec, show e.toBitVec.toNat = e.toUInt32.toNat from rfl] at h1
  have := e.toUInt32.toNat_lt
  split at h1 <;> omega

/-- The sign bit of a difference of integers. -/
theorem toUInt32_shiftRight_31 (e : Int32) : e.toUInt32 >>> 31 = if e.toInt < 0 then 1 else 0 := by
  have h1 := e.le_toInt
  have h2 := e.toInt_lt
  apply UInt32.toNat_inj.1
  rw [UInt32.toNat_shiftRight, Nat.shiftRight_eq_div_pow, show (31 : UInt32).toNat % 32 = 31 from rfl]
  by_cases h : e.toInt < 0
  · have := toNat_toUInt32_of_neg h
    rw [if_pos h, show (1 : UInt32).toNat = 1 from rfl]
    omega
  · have := toNat_toUInt32_of_nonneg (Int.not_lt.1 h)
    rw [if_neg h, UInt32.toNat_zero]
    omega

theorem toInt_add_of_le {a b : Int32} (h1 : -2 ^ 31 ≤ a.toInt + b.toInt) (h2 : a.toInt + b.toInt < 2 ^ 31) :
    (a + b).toInt = a.toInt + b.toInt := by
  rw [Int32.toInt_add]
  exact Int.bmod_eq_of_le (by omega) (by omega)

theorem toInt_sub_of_le {a b : Int32} (h1 : -2 ^ 31 ≤ a.toInt - b.toInt) (h2 : a.toInt - b.toInt < 2 ^ 31) :
    (a - b).toInt = a.toInt - b.toInt := by
  rw [Int32.toInt_sub]
  exact Int.bmod_eq_of_le (by omega) (by omega)

/-- The highest bit of a word or of its opposite tells whether the word is zero. -/
private theorem msb_or_neg {w : ℕ} (x : BitVec (w + 1)) : (x ||| -x).msb = decide (x ≠ 0#(w + 1)) := by
  rw [BitVec.msb_or, BitVec.msb_neg]
  by_cases h0 : x = 0#(w + 1)
  · subst h0
    simp
  · by_cases h1 : x = BitVec.intMin (w + 1)
    · subst h1
      simp [h0, BitVec.msb_intMin]
    · rw [bne_iff_ne.2 h0, bne_iff_ne.2 h1]
      cases x.msb <;> simp [h0]

theorem or_neg_shiftRight_31 (x : UInt32) : (x ||| -x) >>> 31 = if x = 0 then 0 else 1 := by
  have h := msb_or_neg (w := 31) x.toBitVec
  rw [BitVec.msb_eq_decide, decide_eq_decide] at h
  have hiff : (x ||| -x).toNat ≥ 2 ^ 31 ↔ x ≠ 0 := by
    rw [show x ≠ 0 ↔ x.toBitVec ≠ 0#32 from not_congr UInt32.toBitVec_inj.symm]
    exact h
  have hlt := (x ||| -x).toNat_lt
  apply UInt32.toNat_inj.1
  rw [UInt32.toNat_shiftRight, Nat.shiftRight_eq_div_pow, show (31 : UInt32).toNat % 32 = 31 from rfl]
  split
  · rename_i hx
    have : ¬ (x ||| -x).toNat ≥ 2 ^ 31 := fun hc => hiff.1 hc hx
    rw [UInt32.toNat_zero]
    omega
  · rename_i hx
    have := hiff.2 hx
    rw [UInt32.toNat_one]
    omega

theorem or_neg_shiftRight_63 (x : UInt64) : (x ||| -x) >>> 63 = if x = 0 then 0 else 1 := by
  have h := msb_or_neg (w := 63) x.toBitVec
  rw [BitVec.msb_eq_decide, decide_eq_decide] at h
  have hiff : (x ||| -x).toNat ≥ 2 ^ 63 ↔ x ≠ 0 := by
    rw [show x ≠ 0 ↔ x.toBitVec ≠ 0#64 from not_congr UInt64.toBitVec_inj.symm]
    exact h
  have hlt := (x ||| -x).toNat_lt
  apply UInt64.toNat_inj.1
  rw [UInt64.toNat_shiftRight, Nat.shiftRight_eq_div_pow, show (63 : UInt64).toNat % 64 = 63 from rfl]
  split
  · rename_i hx
    have : ¬ (x ||| -x).toNat ≥ 2 ^ 63 := fun hc => hiff.1 hc hx
    rw [UInt64.toNat_zero]
    omega
  · rename_i hx
    have := hiff.2 hx
    rw [UInt64.toNat_one]
    omega

theorem or_one_of_even {a : Nat} (h : a % 2 = 0) : a ||| 1 = a + 1 := by
  have h1 : (a ||| 1) / 2 = a / 2 := by
    rw [Nat.or_div_two, show 1 / 2 = 0 from rfl, Nat.or_zero]
  have h2 : (a ||| 1) % 2 = 1 := Nat.or_mod_two_eq_one.2 (.inr rfl)
  omega

/-- A selection by a mask. -/
theorem xor_and_neg_one (a b : UInt64) : a ^^^ ((a ^^^ b) &&& -1) = b := by
  rw [UInt64.and_neg_one, ← UInt64.xor_assoc, UInt64.xor_self, UInt64.zero_xor]

theorem xor_and_neg_one_signed (a b : Int64) : a ^^^ ((a ^^^ b) &&& -1) = b := by
  rw [Int64.and_neg_one, ← Int64.xor_assoc, Int64.xor_self, Int64.zero_xor]

/-- The integer that an unsigned word holds as a signed one. -/
theorem toInt_toInt64_of_lt {m : UInt64} (h : m.toNat < 2 ^ 63) : m.toInt64.toInt = m.toNat := by
  have h1 := toNat_toUInt64 m.toInt64
  have h2 := m.toInt64.le_toInt
  have h3 := m.toInt64.toInt_lt
  rw [UInt64.toUInt64_toInt64] at h1
  omega

theorem toInt_toInt32_of_lt {w : UInt32} (h : w.toNat < 2 ^ 31) : w.toInt32.toInt = w.toNat := by
  have h1 := BitVec.toInt_eq_toNat_cond w.toInt32.toBitVec
  rw [Int32.toInt_toBitVec, show w.toInt32.toBitVec.toNat = w.toNat from rfl] at h1
  split at h1 <;> omega

/-- An arithmetic shift to the right. -/
theorem toInt_shiftRight_of_lt (e : Int32) {n : Int32} (h0 : 0 ≤ n.toInt) (h : n.toInt < 32) :
    (e >>> n).toInt = e.toInt / 2 ^ n.toInt.toNat := by
  have hn : (BitVec.smod n.toBitVec 32).toNat = n.toInt.toNat := by
    have h1 : n.toBitVec.toInt = n.toInt := Int32.toInt_toBitVec n
    have h2 : (BitVec.smod n.toBitVec 32).toInt = n.toInt := by
      rw [BitVec.toInt_smod, h1, show BitVec.toInt (32 : BitVec 32) = 32 from rfl, Int.fmod_eq_of_lt h0 h]
    have h3 := BitVec.toInt_eq_toNat_cond (BitVec.smod n.toBitVec 32)
    have h4 := (BitVec.smod n.toBitVec 32).isLt
    split at h3 <;> omega
  rw [← Int32.toInt_toBitVec, Int32.toBitVec_shiftRight, BitVec.toInt_sshiftRight', hn, Int32.toInt_toBitVec,
    Int.shiftRight_eq_div_pow]
  norm_cast

theorem toInt_shiftRight_of_lt_64 (e : Int64) {n : Int64} (h0 : 0 ≤ n.toInt) (h : n.toInt < 64) :
    (e >>> n).toInt = e.toInt / 2 ^ n.toInt.toNat := by
  have hn : (BitVec.smod n.toBitVec 64).toNat = n.toInt.toNat := by
    have h1 : n.toBitVec.toInt = n.toInt := Int64.toInt_toBitVec n
    have h2 : (BitVec.smod n.toBitVec 64).toInt = n.toInt := by
      rw [BitVec.toInt_smod, h1, show BitVec.toInt (64 : BitVec 64) = 64 from rfl, Int.fmod_eq_of_lt h0 h]
    have h3 := BitVec.toInt_eq_toNat_cond (BitVec.smod n.toBitVec 64)
    have h4 := (BitVec.smod n.toBitVec 64).isLt
    split at h3 <;> omega
  rw [← Int64.toInt_toBitVec, Int64.toBitVec_shiftRight, BitVec.toInt_sshiftRight', hn, Int64.toInt_toBitVec,
    Int.shiftRight_eq_div_pow]
  norm_cast

/-- The low bits of a signed word. -/
theorem toInt_and_mask (e : Int32) {m : Int32} {k : Nat} (hm : m.toUInt32.toNat = 2 ^ k - 1) (hk : k ≤ 31) :
    (e &&& m).toInt = e.toInt % 2 ^ k := by
  have hpow : 2 ^ k ∣ 2 ^ 32 := Nat.pow_dvd_pow 2 (by omega)
  have hle : 2 ^ k ≤ 2 ^ 31 := Nat.pow_le_pow_right (by decide) hk
  have h1 : (e &&& m).toUInt32.toNat = e.toUInt32.toNat % 2 ^ k := by
    rw [Int32.toUInt32_and, UInt32.toNat_and, hm, Nat.and_two_pow_sub_one_eq_mod]
  have h2 : (e.toUInt32.toNat : ℤ) % 2 ^ k = e.toInt % 2 ^ k := by
    have h3 := BitVec.toInt_eq_toNat_cond e.toBitVec
    rw [Int32.toInt_toBitVec, show e.toBitVec.toNat = e.toUInt32.toNat from rfl] at h3
    split at h3
    · rw [h3]
    · obtain ⟨c, hc⟩ := hpow
      rw [h3, hc, Int.natCast_mul, Int.natCast_pow]
      exact (Int.sub_mul_emod_self_left _ _ _).symm
  have h4 := BitVec.toInt_eq_toNat_cond (e &&& m).toBitVec
  have h5 : e.toUInt32.toNat % 2 ^ k < 2 ^ k := Nat.mod_lt _ (Nat.two_pow_pos k)
  rw [Int32.toInt_toBitVec, show (e &&& m).toBitVec.toNat = (e &&& m).toUInt32.toNat from rfl, h1,
    if_pos (by omega)] at h4
  rw [h4, ← h2]
  norm_cast

/-- A conditional negation. -/
theorem xor_neg_add (i : Int64) {t : Int64} (ht : t = 0 ∨ t = 1) : (i ^^^ -t) + t = if t = 0 then i else -i := by
  rcases ht with rfl | rfl
  · rw [if_pos rfl, show -(0 : Int64) = 0 from rfl, Int64.xor_zero, Int64.add_zero]
  · rw [if_neg (by decide), Int64.xor_neg_one, ← Int64.neg_eq_not_add]

end SignedWords
