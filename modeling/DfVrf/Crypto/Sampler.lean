import Mathlib.Algebra.BigOperators.Field
import Mathlib.Analysis.Complex.Exponential
import DfVrf.Crypto.FprConvert
import DfVrf.Crypto.Prng

/-!
# The discrete Gaussian sampler (`sign.c`, `fpr.c`)

* `gaussian0Value_card`: the distribution of the half-Gaussian over all values of 72 random bits.
* `fprExpmP63_exp`: the polynomial that stands for the exponential, in fixed-point arithmetic.
* `berExp_spec`: a Bernoulli draw compares random bytes with a threshold and stops at the first difference.
* `newSampler_near`: the integers that the sampler returns.
-/

namespace DfVrf.Crypto

open InPlace

/-! ### The half-Gaussian -/

/-- The table `dist`: limbs of 24 bits, the highest one first. -/
def dist : List UInt32 := [
  10745844, 3068844, 3741698, 5559083, 1580863, 8248194, 2260429, 13669192, 2736639, 708981, 4421575, 10046180,
  169348, 7122675, 4136815, 30538, 13063405, 7650655, 4132, 14505003, 7826148, 417, 16768101, 11363290,
  31, 8444042, 8086568, 1, 12844466, 265321, 0, 1232676, 13644283, 0, 38047, 9111839,
  0, 870, 6138264, 0, 14, 12545723, 0, 0, 3104126, 0, 0, 28824,
  0, 0, 198, 0, 0, 1]

/-- The comparison with the value at `u` of the table. -/
def gaussian0Step (v0 v1 v2 : UInt32) (z u : ℕ) : ℕ :=
  let w0 := rd dist (u + 2)
  let w1 := rd dist (u + 1)
  let w2 := rd dist u
  let cc := (v0 - w0) >>> 31
  let cc := (v1 - w1 - cc) >>> 31
  let cc := (v2 - w2 - cc) >>> 31
  z + cc.toNat

/-- The value that `gaussian0_sampler` makes of 72 random bits. -/
def gaussian0Value (lo : UInt64) (hi : UInt8) : ℕ :=
  let v0 := lo.toUInt32 &&& 0xFFFFFF
  let v1 := (lo >>> 24).toUInt32 &&& 0xFFFFFF
  let v2 := (lo >>> 48).toUInt32 ||| (hi.toUInt32 <<< 16)
  (List.range 18).foldl (fun z u => gaussian0Step v0 v1 v2 z (3 * u)) 0

/-- `gaussian0_sampler`. -/
def gaussian0Sampler (p : Prng) : ℕ × Prng :=
  let lo := prngGetU64 p
  let hi := prngGetU8 lo.2
  (gaussian0Value lo.1 hi.1, hi.2)

/-- The value `k` of the table. -/
def distValue (k : ℕ) : ℕ :=
  (rd dist (3 * k + 2)).toNat + (rd dist (3 * k + 1)).toNat * 2 ^ 24 + (rd dist (3 * k)).toNat * 2 ^ 48

private theorem dist_limbs : ∀ i < 54, (rd dist i).toNat < 2 ^ 24 := by decide

private theorem distValue_lt : ∀ k < 17, distValue (k + 1) < distValue k := by decide

private theorem distValue_le {i k : ℕ} (h : i ≤ k) (hk : k < 18) : distValue k ≤ distValue i := by
  induction k, h using Nat.le_induction with
  | base => exact le_rfl
  | succ k _ ih => exact (distValue_lt k (by omega)).le.trans (ih (by omega))

/-- The borrow of a subtraction of limbs. -/
theorem borrow {a b c : UInt32} (ha : a.toNat < 2 ^ 24) (hb : b.toNat < 2 ^ 24) (hc : c.toNat ≤ 1) :
    ((a - b - c) >>> 31).toNat = if a.toNat < b.toNat + c.toNat then 1 else 0 := by
  rw [UInt32.toNat_shiftRight, Nat.shiftRight_eq_div_pow, show (31 : UInt32).toNat % 32 = 31 from rfl, UInt32.toNat_sub,
    UInt32.toNat_sub]
  split <;> omega

/-- The three limbs of 72 random bits. -/
private theorem limbs_72 (lo : UInt64) (hi : UInt8) : (lo.toUInt32 &&& 0xFFFFFF).toNat = lo.toNat % 2 ^ 24 ∧
    ((lo >>> 24).toUInt32 &&& 0xFFFFFF).toNat = lo.toNat / 2 ^ 24 % 2 ^ 24 ∧
    ((lo >>> 48).toUInt32 ||| (hi.toUInt32 <<< 16)).toNat = lo.toNat / 2 ^ 48 + hi.toNat * 2 ^ 16 := by
  have hlo := lo.toNat_lt
  have hhi := hi.toNat_lt
  refine ⟨?_, ?_, ?_⟩
  · rw [UInt32.toNat_and, UInt64.toNat_toUInt32, show (0xFFFFFF : UInt32).toNat = 2 ^ 24 - 1 from rfl,
      Nat.and_two_pow_sub_one_eq_mod]
    omega
  · rw [UInt32.toNat_and, UInt64.toNat_toUInt32, UInt64.toNat_shiftRight, Nat.shiftRight_eq_div_pow,
      show (24 : UInt64).toNat % 64 = 24 from rfl, show (0xFFFFFF : UInt32).toNat = 2 ^ 24 - 1 from rfl,
      Nat.and_two_pow_sub_one_eq_mod]
    omega
  · have h1 : (lo >>> 48).toUInt32.toNat = lo.toNat / 2 ^ 48 := by
      rw [UInt64.toNat_toUInt32, UInt64.toNat_shiftRight, Nat.shiftRight_eq_div_pow,
        show (48 : UInt64).toNat % 64 = 48 from rfl]
      omega
    have h2 : (hi.toUInt32 <<< 16).toNat = 2 ^ 16 * hi.toNat := by
      rw [UInt32.toNat_shiftLeft, Nat.shiftLeft_eq, show (16 : UInt32).toNat % 32 = 16 from rfl, UInt8.toNat_toUInt32]
      omega
    rw [UInt32.toNat_or, h1, h2, Nat.or_comm, ← Nat.two_pow_add_eq_or_of_lt (by omega)]
    omega

/-- The number of the 72 random bits. -/
def bits72 (lo : UInt64) (hi : UInt8) : ℕ := lo.toNat + hi.toNat * 2 ^ 64

private theorem gaussian0Step_eq (lo : UInt64) (hi : UInt8) (z : ℕ) {k : ℕ} (hk : k < 18) :
    gaussian0Step (lo.toUInt32 &&& 0xFFFFFF) ((lo >>> 24).toUInt32 &&& 0xFFFFFF)
      ((lo >>> 48).toUInt32 ||| (hi.toUInt32 <<< 16)) z (3 * k) = z + if bits72 lo hi < distValue k then 1 else 0 := by
  obtain ⟨h0, h1, h2⟩ := limbs_72 lo hi
  have hlo := lo.toNat_lt
  have hhi := hi.toNat_lt
  have w0 := dist_limbs (3 * k + 2) (by omega)
  have w1 := dist_limbs (3 * k + 1) (by omega)
  have w2 := dist_limbs (3 * k) (by omega)
  have b0 := borrow (a := lo.toUInt32 &&& 0xFFFFFF) (by omega) w0 (c := 0) (by decide)
  rw [UInt32.sub_zero, UInt32.toNat_zero, add_zero, h0] at b0
  unfold gaussian0Step
  simp only
  generalize ((lo.toUInt32 &&& 0xFFFFFF) - rd dist (3 * k + 2)) >>> 31 = c0 at b0 ⊢
  have hle0 : c0.toNat ≤ 1 := by
    rw [b0]
    split <;> decide
  have b1 := borrow (a := (lo >>> 24).toUInt32 &&& 0xFFFFFF) (by omega) w1 hle0
  rw [h1] at b1
  generalize (((lo >>> 24).toUInt32 &&& 0xFFFFFF) - rd dist (3 * k + 1) - c0) >>> 31 = c1 at b1 ⊢
  have hle1 : c1.toNat ≤ 1 := by
    rw [b1]
    split <;> decide
  have b2 := borrow (a := (lo >>> 48).toUInt32 ||| (hi.toUInt32 <<< 16)) (by omega) w2 hle1
  rw [b2, h2]
  unfold bits72 distValue
  congr 1
  refine if_congr ?_ rfl rfl
  split at b0 <;> split at b1 <;> omega

/-- The sampler counts the values of the table above the random number; they are the first ones. -/
theorem gaussian0Value_spec (lo : UInt64) (hi : UInt8) :
    gaussian0Value lo hi ≤ 18 ∧ ∀ k < 18, bits72 lo hi < distValue k ↔ k < gaussian0Value lo hi := by
  have hrun : ∀ n ≤ 18, (List.range n).foldl (fun z u => gaussian0Step (lo.toUInt32 &&& 0xFFFFFF)
      ((lo >>> 24).toUInt32 &&& 0xFFFFFF) ((lo >>> 48).toUInt32 ||| (hi.toUInt32 <<< 16)) z (3 * u)) 0 ≤ n ∧
      ∀ k < n, bits72 lo hi < distValue k ↔ k < (List.range n).foldl (fun z u => gaussian0Step
        (lo.toUInt32 &&& 0xFFFFFF) ((lo >>> 24).toUInt32 &&& 0xFFFFFF)
        ((lo >>> 48).toUInt32 ||| (hi.toUInt32 <<< 16)) z (3 * u)) 0 := by
    intro n hn
    induction n with
    | zero => exact ⟨le_rfl, fun k hk => absurd hk (Nat.not_lt_zero k)⟩
    | succ n ih =>
      obtain ⟨hle, hiff⟩ := ih (by omega)
      rw [List.range_succ, List.foldl_append, List.foldl_cons, List.foldl_nil, gaussian0Step_eq lo hi _ (by omega)]
      generalize (List.range n).foldl _ 0 = z at hle hiff ⊢
      split
      · rename_i hlt
        -- a value above the number is above it at all smaller indices
        have hz : z = n := by
          by_contra hc
          have := (hiff z (by omega)).1 (hlt.trans_le (distValue_le (by omega) (by omega)))
          omega
        refine ⟨by omega, fun k hk => iff_of_true (hlt.trans_le (distValue_le (by omega) (by omega))) (by omega)⟩
      · rename_i hlt
        refine ⟨by omega, fun k hk => ?_⟩
        rcases Nat.lt_succ_iff_lt_or_eq.1 hk with hk' | rfl
        · rw [add_zero]
          exact hiff k hk'
        · exact iff_of_false hlt (by omega)
  exact hrun 18 le_rfl

/-- The numbers of 72 bits for which the sampler returns at least `k`. -/
def atLeast (k : ℕ) : ℕ := if k = 0 then 2 ^ 72 else if k ≤ 18 then distValue (k - 1) else 0

theorem lt_atLeast_iff (lo : UInt64) (hi : UInt8) (k : ℕ) :
    bits72 lo hi < atLeast k ↔ k ≤ gaussian0Value lo hi := by
  obtain ⟨hle, hiff⟩ := gaussian0Value_spec lo hi
  have hlo := lo.toNat_lt
  have hhi := hi.toNat_lt
  unfold atLeast
  split
  · unfold bits72
    omega
  · split
    · rw [hiff (k - 1) (by omega)]
      omega
    · omega

/-- Over all values of the 72 bits the sampler returns `k` for as many as the table says. -/
theorem gaussian0Value_card (k : ℕ) :
    ((Finset.range (2 ^ 72)).filter fun v => gaussian0Value (UInt64.ofNat v) (UInt8.ofNat (v / 2 ^ 64)) = k).card =
      atLeast k - atLeast (k + 1) := by
  have hmem : ((Finset.range (2 ^ 72)).filter fun v =>
      gaussian0Value (UInt64.ofNat v) (UInt8.ofNat (v / 2 ^ 64)) = k) = Finset.Ico (atLeast (k + 1)) (atLeast k) := by
    ext v
    rw [Finset.mem_filter, Finset.mem_range, Finset.mem_Ico]
    have hbound : atLeast k ≤ 2 ^ 72 := by
      have hd : ∀ k < 18, distValue k ≤ 2 ^ 72 := by decide
      unfold atLeast
      split
      · exact le_rfl
      · split
        · exact hd _ (by omega)
        · exact Nat.zero_le _
    have hnum : v < 2 ^ 72 → bits72 (UInt64.ofNat v) (UInt8.ofNat (v / 2 ^ 64)) = v := by
      intro hv
      unfold bits72
      rw [UInt64.toNat_ofNat', UInt8.toNat_ofNat']
      omega
    constructor
    · rintro ⟨hv, rfl⟩
      have h1 := lt_atLeast_iff (UInt64.ofNat v) (UInt8.ofNat (v / 2 ^ 64))
      rw [hnum hv] at h1
      exact ⟨not_lt.1 fun hc => absurd ((h1 _).1 hc) (by omega), (h1 _).2 le_rfl⟩
    · rintro ⟨hlo, hhi⟩
      have hv : v < 2 ^ 72 := hhi.trans_le hbound
      have h1 := lt_atLeast_iff (UInt64.ofNat v) (UInt8.ofNat (v / 2 ^ 64))
      rw [hnum hv] at h1
      refine ⟨hv, le_antisymm ?_ ((h1 k).1 hhi)⟩
      by_contra hc
      exact absurd ((h1 (k + 1)).2 (by omega)) (not_lt.2 hlo)
  rw [hmem, Nat.card_Ico]

/-! ### The exponential -/

/-- The table `C` of `fpr_expm_p63`. -/
def expmTable : List UInt64 := [
  0x00000004741183A3, 0x00000036548CFC06, 0x0000024FDCBF140A, 0x0000171D939DE045,
  0x0000D00CF58F6F84, 0x000680681CF796E3, 0x002D82D8305B0FEA, 0x011111110E066FD0,
  0x0555555555070F00, 0x155555555581FF00, 0x400000000002B400, 0x7FFFFFFFFFFF4800,
  0x8000000000000000]

/-- The upper half of a product of 128 bits. -/
def mulHigh (z y : UInt64) : UInt64 :=
  let z0 := z.toUInt32
  let z1 := (z >>> 32).toUInt32
  let y0 := y.toUInt32
  let y1 := (y >>> 32).toUInt32
  let a := z0.toUInt64 * y1.toUInt64 + ((z0.toUInt64 * y0.toUInt64) >>> 32)
  let b := z1.toUInt64 * y0.toUInt64
  let c := (a >>> 32) + (b >>> 32)
  let c := c + ((a.toUInt32.toUInt64 + b.toUInt32.toUInt64) >>> 32)
  c + z1.toUInt64 * y1.toUInt64

/-- The loop of `fpr_expm_p63`, up to the coefficient `k`. -/
def expmLoop (z : UInt64) (k : ℕ) : UInt64 :=
  (List.range k).foldl (fun y u => rd expmTable (u + 1) - mulHigh z y) (rd expmTable 0)

/-- `fpr_ptwo63`. -/
def fprPtwo63 : UInt64 := 4890909195324358656

/-- A number as a fixed-point word: the integral part of `2 ^ 63` times it, doubled. -/
def fixed63 (x : UInt64) : UInt64 := (fprTrunc (fprMul x fprPtwo63)).toUInt64 <<< 1

/-- `fpr_expm_p63`. -/
def fprExpmP63 (x ccs : UInt64) : UInt64 :=
  let y := expmLoop (fixed63 x) 12
  mulHigh (fixed63 ccs) y

private theorem toNat_mulHigh (z y : UInt64) : (mulHigh z y).toNat = z.toNat * y.toNat / 2 ^ 64 := by
  have hsplit : ∀ w : UInt64, w.toUInt32.toUInt64.toNat = w.toNat % 2 ^ 32 ∧ (w >>> 32).toNat = w.toNat / 2 ^ 32 ∧
      (w >>> 32).toUInt32.toUInt64.toNat = w.toNat / 2 ^ 32 := by
    intro w
    have hw := w.toNat_lt
    have h1 : (w >>> 32).toNat = w.toNat / 2 ^ 32 := by
      rw [UInt64.toNat_shiftRight, Nat.shiftRight_eq_div_pow]
      rfl
    refine ⟨by rw [UInt32.toNat_toUInt64, UInt64.toNat_toUInt32], h1, ?_⟩
    rw [UInt32.toNat_toUInt64, UInt64.toNat_toUInt32, h1]
    omega
  have hmul : ∀ {a b : UInt64}, a.toNat < 2 ^ 32 → b.toNat < 2 ^ 32 →
      (a * b).toNat = a.toNat * b.toNat ∧ a.toNat * b.toNat ≤ (2 ^ 32 - 1) * (2 ^ 32 - 1) := by
    intro a b ha hb
    have h : a.toNat * b.toNat ≤ (2 ^ 32 - 1) * (2 ^ 32 - 1) := Nat.mul_le_mul (by omega) (by omega)
    refine ⟨?_, h⟩
    rw [UInt64.toNat_mul, Nat.mod_eq_of_lt (by omega)]
  have hz := z.toNat_lt
  have hy := y.toNat_lt
  obtain ⟨z0, -, z1⟩ := hsplit z
  obtain ⟨y0, -, y1⟩ := hsplit y
  obtain ⟨m01, l01⟩ := hmul (a := z.toUInt32.toUInt64) (b := (y >>> 32).toUInt32.toUInt64) (by omega) (by omega)
  obtain ⟨m00, l00⟩ := hmul (a := z.toUInt32.toUInt64) (b := y.toUInt32.toUInt64) (by omega) (by omega)
  obtain ⟨m10, l10⟩ := hmul (a := (z >>> 32).toUInt32.toUInt64) (b := y.toUInt32.toUInt64) (by omega) (by omega)
  obtain ⟨m11, l11⟩ := hmul (a := (z >>> 32).toUInt32.toUInt64) (b := (y >>> 32).toUInt32.toUInt64) (by omega) (by omega)
  have hprod : z.toNat * y.toNat = z.toNat % 2 ^ 32 * (y.toNat % 2 ^ 32) +
      (z.toNat % 2 ^ 32 * (y.toNat / 2 ^ 32) + z.toNat / 2 ^ 32 * (y.toNat % 2 ^ 32)) * 2 ^ 32 +
      z.toNat / 2 ^ 32 * (y.toNat / 2 ^ 32) * 2 ^ 64 := by
    conv_lhs => rw [← Nat.div_add_mod z.toNat (2 ^ 32), ← Nat.div_add_mod y.toNat (2 ^ 32)]
    ring
  rw [z0, y1] at m01 l01
  rw [z0, y0] at m00 l00
  rw [z1, y0] at m10 l10
  rw [z1, y1] at m11 l11
  have ha : (z.toUInt32.toUInt64 * (y >>> 32).toUInt32.toUInt64 +
      ((z.toUInt32.toUInt64 * y.toUInt32.toUInt64) >>> 32)).toNat =
      z.toNat % 2 ^ 32 * (y.toNat / 2 ^ 32) + z.toNat % 2 ^ 32 * (y.toNat % 2 ^ 32) / 2 ^ 32 := by
    rw [UInt64.toNat_add, m01, (hsplit _).2.1, m00]
    omega
  unfold mulHigh
  simp only
  generalize z.toUInt32.toUInt64 * (y >>> 32).toUInt32.toUInt64 + _ = a at ha ⊢
  generalize (z >>> 32).toUInt32.toUInt64 * y.toUInt32.toUInt64 = b at m10 ⊢
  generalize (z >>> 32).toUInt32.toUInt64 * (y >>> 32).toUInt32.toUInt64 = d at m11 ⊢
  obtain ⟨a0, a1, -⟩ := hsplit a
  obtain ⟨b0, b1, -⟩ := hsplit b
  have hsum : (a.toUInt32.toUInt64 + b.toUInt32.toUInt64).toNat = a.toNat % 2 ^ 32 + b.toNat % 2 ^ 32 := by
    rw [UInt64.toNat_add, a0, b0]
    omega
  rw [UInt64.toNat_add, UInt64.toNat_add, UInt64.toNat_add, a1, b1, (hsplit _).2.1, hsum, m11, hprod, ha, m10]
  generalize z.toNat % 2 ^ 32 * (y.toNat / 2 ^ 32) = p01 at *
  generalize z.toNat % 2 ^ 32 * (y.toNat % 2 ^ 32) = p00 at *
  generalize z.toNat / 2 ^ 32 * (y.toNat % 2 ^ 32) = p10 at *
  generalize z.toNat / 2 ^ 32 * (y.toNat / 2 ^ 32) = p11 at *
  omega

/-- The exact value of the polynomial up to the coefficient `k`. -/
noncomputable def expmPoly (t : ℝ) : ℕ → ℝ
  | 0 => (rd expmTable 0).toNat
  | k + 1 => (rd expmTable (k + 1)).toNat - t * expmPoly t k

private theorem expmTable_mono : ∀ k < 12, (rd expmTable k).toNat ≤ (rd expmTable (k + 1)).toNat := by decide

private theorem expmLoop_succ (z : UInt64) (k : ℕ) :
    expmLoop z (k + 1) = rd expmTable (k + 1) - mulHigh z (expmLoop z k) := by
  rw [expmLoop, List.range_succ, List.foldl_append]
  rfl

/-- No subtraction of the loop borrows, and each step adds an error of less than one unit. -/
theorem expmLoop_spec (z : UInt64) {k : ℕ} (hk : k ≤ 12) : (expmLoop z k).toNat ≤ (rd expmTable k).toNat ∧
    |((expmLoop z k).toNat : ℝ) - expmPoly (z.toNat / 2 ^ 64) k| ≤ k := by
  have hz := z.toNat_lt
  have ht : |(z.toNat : ℝ) / 2 ^ 64| ≤ 1 := by
    rw [abs_of_nonneg (by positivity), div_le_one (by positivity)]
    exact_mod_cast hz.le
  induction k with
  | zero =>
    refine ⟨le_rfl, le_of_eq ?_⟩
    change |((rd expmTable 0).toNat : ℝ) - (rd expmTable 0).toNat| = _
    rw [sub_self, abs_zero, Nat.cast_zero]
  | succ k ih =>
    obtain ⟨hle, herr⟩ := ih (by omega)
    have hmono := expmTable_mono k (by omega)
    have hhigh := toNat_mulHigh z (expmLoop z k)
    have hprod : z.toNat * (expmLoop z k).toNat ≤ 2 ^ 64 * (expmLoop z k).toNat := Nat.mul_le_mul_right _ hz.le
    have hc : (mulHigh z (expmLoop z k)).toNat ≤ (expmLoop z k).toNat := by
      rw [hhigh]
      exact Nat.div_le_of_le_mul hprod
    have hsub : (expmLoop z (k + 1)).toNat = (rd expmTable (k + 1)).toNat - (mulHigh z (expmLoop z k)).toNat := by
      rw [expmLoop_succ, UInt64.toNat_sub_of_le _ _ (by rw [UInt64.le_iff_toNat_le]; omega)]
    refine ⟨by omega, ?_⟩
    -- the error of the step before is scaled by at most one
    have hfloor : |(z.toNat : ℝ) / 2 ^ 64 * (expmLoop z k).toNat - (mulHigh z (expmLoop z k)).toNat| ≤ 1 := by
      have h1 : (mulHigh z (expmLoop z k)).toNat * 2 ^ 64 ≤ z.toNat * (expmLoop z k).toNat := by
        rw [hhigh]
        exact Nat.div_mul_le_self _ _
      have h2 : z.toNat * (expmLoop z k).toNat ≤ ((mulHigh z (expmLoop z k)).toNat + 1) * 2 ^ 64 := by
        rw [hhigh]
        generalize z.toNat * (expmLoop z k).toNat = P
        omega
      rw [div_mul_eq_mul_div, abs_le]
      have h1' : ((mulHigh z (expmLoop z k)).toNat : ℝ) * 2 ^ 64 ≤ z.toNat * (expmLoop z k).toNat := by
        exact_mod_cast h1
      have h2' : (z.toNat : ℝ) * (expmLoop z k).toNat ≤ ((mulHigh z (expmLoop z k)).toNat + 1) * 2 ^ 64 := by
        exact_mod_cast h2
      have hpos : (0 : ℝ) < 2 ^ 64 := by positivity
      have h3 := (le_div_iff₀ hpos).2 h1'
      have h4 := (div_le_iff₀ hpos).2 h2'
      constructor <;> linarith
    have hscaled : |(z.toNat : ℝ) / 2 ^ 64 * ((expmLoop z k).toNat - expmPoly (z.toNat / 2 ^ 64) k)| ≤ (k : ℝ) := by
      rw [abs_mul]
      calc |(z.toNat : ℝ) / 2 ^ 64| * |((expmLoop z k).toNat : ℝ) - expmPoly (z.toNat / 2 ^ 64) k|
          ≤ 1 * (k : ℝ) := mul_le_mul ht herr (abs_nonneg _) zero_le_one
        _ = k := one_mul _
    rw [hsub, Nat.cast_sub (by omega), expmPoly]
    rw [abs_le] at hfloor hscaled ⊢
    push_cast
    constructor <;> linarith

private theorem expmPoly_eq_sum (t : ℝ) (k : ℕ) :
    expmPoly t k = ∑ j ∈ Finset.range (k + 1), (-t) ^ j * ((rd expmTable (k - j)).toNat : ℝ) := by
  induction k with
  | zero =>
    rw [Finset.sum_range_one, pow_zero, one_mul]
    rfl
  | succ k ih =>
    rw [Finset.sum_range_succ', expmPoly, ih, pow_zero, one_mul, Nat.sub_zero, Finset.mul_sum, sub_eq_add_neg, add_comm,
      ← Finset.sum_neg_distrib]
    congr 1
    refine Finset.sum_congr rfl fun j _ => ?_
    rw [Nat.add_sub_add_right, pow_succ]
    ring

/-- The result is the polynomial at the fixed-point number of `x`, scaled by that of `ccs`, up to 13 units, for all
words. -/
private theorem fprExpmP63_words (x ccs : UInt64) : (fprExpmP63 x ccs).toNat ≤ 2 ^ 63 ∧
    |((fprExpmP63 x ccs).toNat : ℝ) - (fixed63 ccs).toNat / 2 ^ 64 *
      ∑ j ∈ Finset.range 13, (-((fixed63 x).toNat / 2 ^ 64 : ℝ)) ^ j * ((rd expmTable (12 - j)).toNat : ℝ)| ≤ 13 := by
  have hdef : fprExpmP63 x ccs = mulHigh (fixed63 ccs) (expmLoop (fixed63 x) 12) := by
    rw [fprExpmP63]
  rw [hdef]
  generalize fixed63 ccs = w, fixed63 x = z
  have hwlt := w.toNat_lt
  obtain ⟨hle, herr⟩ := expmLoop_spec z (k := 12) le_rfl
  have htop : (rd expmTable 12).toNat = 2 ^ 63 := rfl
  have hprod : w.toNat * (expmLoop z 12).toNat ≤ 2 ^ 64 * (expmLoop z 12).toNat := Nat.mul_le_mul_right _ hwlt.le
  rw [← expmPoly_eq_sum _ 12, toNat_mulHigh]
  generalize (expmLoop z 12).toNat = y at *
  refine ⟨by omega, ?_⟩
  have h1 : w.toNat * y / 2 ^ 64 * 2 ^ 64 ≤ w.toNat * y := Nat.div_mul_le_self _ _
  have h2 : w.toNat * y ≤ (w.toNat * y / 2 ^ 64 + 1) * 2 ^ 64 := by
    generalize w.toNat * y = P
    omega
  generalize w.toNat * y / 2 ^ 64 = r at *
  have hpos : (0 : ℝ) < 2 ^ 64 := by positivity
  have h3 : (r : ℝ) ≤ w.toNat / 2 ^ 64 * y := by
    rw [div_mul_eq_mul_div, le_div_iff₀ hpos]
    exact_mod_cast h1
  have h4 : (w.toNat : ℝ) / 2 ^ 64 * y ≤ r + 1 := by
    rw [div_mul_eq_mul_div, div_le_iff₀ hpos]
    exact_mod_cast h2
  have ht : |(w.toNat : ℝ) / 2 ^ 64| ≤ 1 := by
    rw [abs_of_nonneg (by positivity), div_le_one hpos]
    exact_mod_cast hwlt.le
  have h5 : |(w.toNat : ℝ) / 2 ^ 64 * (y - expmPoly (z.toNat / 2 ^ 64) 12)| ≤ 12 := by
    rw [abs_mul]
    calc |(w.toNat : ℝ) / 2 ^ 64| * |(y : ℝ) - expmPoly (z.toNat / 2 ^ 64) 12|
        ≤ 1 * ((12 : ℕ) : ℝ) := mul_le_mul ht herr (abs_nonneg _) zero_le_one
      _ = 12 := by norm_num
  rw [abs_le] at h5 ⊢
  constructor <;> linarith

private theorem value_fprPtwo63 : fprValue fprPtwo63 = 2 ^ 63 := by
  have h1 : signBit fprPtwo63 = 0 := by decide
  have h2 : expBits fprPtwo63 = 1086 := by decide
  have h3 : fracBits fprPtwo63 = 0 := by decide
  rw [fprValue, magnitude_def, h1, h2, h3, if_neg (by norm_num)]
  norm_num

/-- A number is zero or at least the smallest normal one. -/
private theorem fprValue_zero_or_le (x : UInt64) : fprValue x = 0 ∨ 2 ^ (-1022 : ℤ) ≤ |fprValue x| := by
  rw [fprValue, abs_mul, abs_pow, abs_neg, abs_one, one_pow, one_mul, abs_of_nonneg (magnitude_nonneg x), magnitude_def]
  split
  · exact .inl (mul_zero _)
  · rename_i hx
    right
    have hexp : (1 : ℤ) - 1075 ≤ (expBits x : ℤ) - 1075 := by omega
    calc (2 : ℝ) ^ (-1022 : ℤ) = 2 ^ 52 * 2 ^ ((1 : ℤ) - 1075) := by
          rw [← zpow_natCast, ← zpow_add₀ two_ne_zero]
          norm_num
      _ ≤ ((2 ^ 52 + fracBits x : ℕ) : ℝ) * 2 ^ ((expBits x : ℤ) - 1075) := by
          refine mul_le_mul ?_ (zpow_le_zpow_right₀ one_le_two hexp) (zpow_nonneg zero_le_two _)
            (Nat.cast_nonneg _)
          push_cast
          linarith [(Nat.cast_nonneg (fracBits x) : (0 : ℝ) ≤ fracBits x)]

/-- The product with `2 ^ 63` is exact. -/
private theorem value_fprMul_ptwo63 {x : UInt64} (hx : |fprValue x| < 1) :
    fprValue (fprMul x fprPtwo63) = fprValue x * 2 ^ 63 := by
  have hround : fprRound (fprValue x * 2 ^ 63) = fprValue x * 2 ^ 63 := by
    rcases fprValue_zero_or_le x with h0 | hle
    · rw [h0, zero_mul, fprRound_zero]
    · have hprec : Rounding.HasPrecision 53 (fprValue x * 2 ^ 63) := by
        obtain ⟨m, e, hm, hv⟩ := hasPrecision_fprValue (z := x)
        refine ⟨m, e + 63, hm, ?_⟩
        rw [Nat.cast_ofNat] at hv ⊢
        rw [hv, zpow_add₀ two_ne_zero, mul_assoc]
        rfl
      have hlarge : (2 : ℝ) ^ (-1022 : ℤ) ≤ |fprValue x * 2 ^ 63| := by
        rw [abs_mul]
        exact hle.trans (le_mul_of_one_le_right (abs_nonneg _) (by norm_num))
      have hself := Rounding.abs_sub_roundTo_le (x := fprValue x * 2 ^ 63) (by norm_num : 1 ≤ 53) hprec
      rw [sub_self, abs_zero] at hself
      rw [fprRound_def, if_neg (not_lt.2 hlarge)]
      exact (sub_eq_zero.1 (abs_nonpos_iff.1 hself)).symm
  have hfit : |fprRound (fprValue x * fprValue fprPtwo63)| < 2 ^ (1024 : ℤ) := by
    rw [value_fprPtwo63, hround, abs_mul]
    have hpow : (2 : ℝ) ^ 63 < 2 ^ (1024 : ℤ) := by
      rw [← zpow_natCast]
      exact zpow_lt_zpow_right₀ one_lt_two (by norm_num)
    calc |fprValue x| * |(2 : ℝ) ^ 63| ≤ 1 * 2 ^ 63 := by
          rw [abs_of_pos (by positivity : (0 : ℝ) < 2 ^ 63)]
          exact mul_le_mul_of_nonneg_right hx.le (by positivity)
      _ < 2 ^ (1024 : ℤ) := by rwa [one_mul]
  obtain ⟨hprod, henc⟩ := fprMul_signed hfit
  rw [(henc.isRounded hprod).value_eq, value_fprPtwo63, hround]

/-- The fixed-point number is at most one unit below the number. -/
theorem fixed63_spec {x : UInt64} (h0 : 0 ≤ fprValue x) (h1 : fprValue x < 1) :
    |fprValue x - (fixed63 x).toNat / 2 ^ 64| ≤ 1 / 2 ^ 63 := by
  have hval := value_fprMul_ptwo63 (x := x) (by rwa [abs_of_nonneg h0])
  have hnn : 0 ≤ fprValue x * 2 ^ 63 := by positivity
  have hlt : fprValue x * 2 ^ 63 < 2 ^ 63 := by
    calc fprValue x * 2 ^ 63 < 1 * 2 ^ 63 := mul_lt_mul_of_pos_right h1 (by positivity)
      _ = 2 ^ 63 := one_mul _
  have htrunc := toInt_fprTrunc (x := fprMul x fprPtwo63) (by rwa [hval, abs_of_nonneg hnn])
  rw [hval, if_pos hnn] at htrunc
  have hfl0 : 0 ≤ ⌊fprValue x * 2 ^ 63⌋ := Int.floor_nonneg.2 hnn
  have hfl1 := Int.floor_le (fprValue x * 2 ^ 63)
  have hfl2 := Int.lt_floor_add_one (fprValue x * 2 ^ 63)
  have hfl3 : ⌊fprValue x * 2 ^ 63⌋ < 2 ^ 63 := by
    rw [Int.floor_lt, show ((2 ^ 63 : ℤ) : ℝ) = 2 ^ 63 by norm_num]
    exact hlt
  generalize ⌊fprValue x * 2 ^ 63⌋ = n at htrunc hfl0 hfl1 hfl2 hfl3
  have hword : ((fixed63 x).toNat : ℤ) = 2 * n := by
    unfold fixed63
    generalize fprTrunc (fprMul x fprPtwo63) = t at htrunc ⊢
    have ht : (t.toUInt64.toNat : ℤ) = n := by
      have h := Int64.toInt_toBitVec t
      have h2 : (t.toUInt64.toNat : ℤ) = t.toBitVec.toNat := rfl
      rw [h2, ← htrunc, ← Int64.toInt_toBitVec, BitVec.toInt_eq_toNat_of_lt]
      by_contra hc
      have := BitVec.toInt_neg_iff (x := t.toBitVec)
      rw [Int64.toInt_toBitVec] at this
      omega
    rw [UInt64.toNat_shiftLeft, Nat.shiftLeft_eq, show (1 : UInt64).toNat % 64 = 1 from rfl]
    omega
  have hcast : ((fixed63 x).toNat : ℝ) = 2 * n := by exact_mod_cast hword
  rw [hcast, abs_le]
  constructor <;> linarith

private theorem expmPoly_mem {t : ℝ} (h0 : 0 ≤ t) (h1 : t ≤ 1) {k : ℕ} (hk : k ≤ 12) :
    0 ≤ expmPoly t k ∧ expmPoly t k ≤ (rd expmTable k).toNat := by
  induction k with
  | zero => exact ⟨Nat.cast_nonneg _, le_rfl⟩
  | succ k ih =>
    obtain ⟨hnn, hle⟩ := ih (by omega)
    have hmono : ((rd expmTable k).toNat : ℝ) ≤ (rd expmTable (k + 1)).toNat := by
      exact_mod_cast expmTable_mono k (by omega)
    have hprod : t * expmPoly t k ≤ expmPoly t k := mul_le_of_le_one_left hnn h1
    rw [expmPoly]
    exact ⟨by linarith, sub_le_self _ (mul_nonneg h0 hnn)⟩

private theorem expmTable_le : ∀ k < 13, (rd expmTable k).toNat ≤ 2 ^ 63 := by decide

/-- How the polynomial changes with its argument. -/
private theorem expmPoly_lipschitz {s t : ℝ} (hs : 0 ≤ s) (hs1 : s ≤ 1) (ht : 0 ≤ t) (ht1 : t ≤ 1) {k : ℕ}
    (hk : k ≤ 12) :
    |expmPoly s k - expmPoly t k| ≤ k * (2 ^ 63 * |s - t|) := by
  induction k with
  | zero =>
    rw [expmPoly, expmPoly, sub_self, abs_zero, Nat.cast_zero, zero_mul]
  | succ k ih =>
    have hprev := ih (by omega)
    obtain ⟨hnn, hle⟩ := expmPoly_mem hs hs1 (k := k) (by omega)
    have htop : ((rd expmTable k).toNat : ℝ) ≤ 2 ^ 63 := by exact_mod_cast expmTable_le k (by omega)
    have hsplit : expmPoly s (k + 1) - expmPoly t (k + 1) =
        -((s - t) * expmPoly s k + t * (expmPoly s k - expmPoly t k)) := by
      rw [expmPoly, expmPoly]
      ring
    rw [hsplit, abs_neg]
    calc |(s - t) * expmPoly s k + t * (expmPoly s k - expmPoly t k)|
        ≤ |s - t| * |expmPoly s k| + |t| * |expmPoly s k - expmPoly t k| := by
          rw [← abs_mul, ← abs_mul]
          exact abs_add_le _ _
      _ ≤ |s - t| * 2 ^ 63 + 1 * (k * (2 ^ 63 * |s - t|)) := by
          rw [abs_of_nonneg hnn, abs_of_nonneg ht]
          gcongr
          exact hle.trans htop
      _ = ((k + 1 : ℕ) : ℝ) * (2 ^ 63 * |s - t|) := by
          push_cast
          ring

/-- The result is `ccs` times the polynomial at `x`, up to 26 units of `2 ^ -63`. -/
private theorem fprExpmP63_near {x ccs : UInt64} (hx0 : 0 ≤ fprValue x) (hx1 : fprValue x < 1) (hc0 : 0 ≤ fprValue ccs)
    (hc1 : fprValue ccs < 1) : |((fprExpmP63 x ccs).toNat : ℝ) - fprValue ccs *
      ∑ j ∈ Finset.range 13, (-fprValue x) ^ j * ((rd expmTable (12 - j)).toNat : ℝ)| ≤ 26 := by
  have herr := (fprExpmP63_words x ccs).2
  have hz := fixed63_spec hx0 hx1
  have hw := fixed63_spec hc0 hc1
  rw [← expmPoly_eq_sum _ 12] at herr ⊢
  have hzlt := (fixed63 x).toNat_lt
  have hz0 : (0 : ℝ) ≤ (fixed63 x).toNat / 2 ^ 64 := by positivity
  have hz1 : ((fixed63 x).toNat : ℝ) / 2 ^ 64 ≤ 1 := by
    rw [div_le_one (by positivity)]
    exact_mod_cast hzlt.le
  generalize ((fixed63 x).toNat : ℝ) / 2 ^ 64 = z at *
  generalize ((fixed63 ccs).toNat : ℝ) / 2 ^ 64 = w at *
  have hlip := expmPoly_lipschitz hx0 hx1.le hz0 hz1 (k := 12) le_rfl
  obtain ⟨hp0, hp1⟩ := expmPoly_mem hz0 hz1 (k := 12) le_rfl
  have htop : ((rd expmTable 12).toNat : ℝ) ≤ 2 ^ 63 := by exact_mod_cast expmTable_le 12 (by norm_num)
  have hscale : |fprValue ccs * (expmPoly (fprValue x) 12 - expmPoly z 12)| ≤ 12 := by
    rw [abs_mul, abs_of_nonneg hc0]
    calc fprValue ccs * |expmPoly (fprValue x) 12 - expmPoly z 12|
        ≤ 1 * (((12 : ℕ) : ℝ) * (2 ^ 63 * (1 / 2 ^ 63))) := by
          refine mul_le_mul hc1.le (hlip.trans ?_) (abs_nonneg _) zero_le_one
          gcongr
      _ = 12 := by norm_num
  have hfactor : |(fprValue ccs - w) * expmPoly z 12| ≤ 1 := by
    rw [abs_mul, abs_of_nonneg hp0]
    calc |fprValue ccs - w| * expmPoly z 12 ≤ 1 / 2 ^ 63 * 2 ^ 63 :=
          mul_le_mul hw (hp1.trans htop) hp0 (by positivity)
      _ = 1 := by norm_num
  have hsplit : ((fprExpmP63 x ccs).toNat : ℝ) - fprValue ccs * expmPoly (fprValue x) 12 =
      (((fprExpmP63 x ccs).toNat : ℝ) - w * expmPoly z 12) - (fprValue ccs - w) * expmPoly z 12 -
        fprValue ccs * (expmPoly (fprValue x) 12 - expmPoly z 12) := by
    ring
  rw [hsplit]
  rw [abs_le] at herr hscale hfactor ⊢
  constructor <;> linarith

/-- The table holds the coefficients of the exponential, up to less than `2 ^ -37` at `7 / 10`. -/
private theorem expmTable_near :
    ∀ j < 13, 7 ^ j * (((rd expmTable (12 - j)).toNat : ℤ) * j.factorial - 2 ^ 63).natAbs * 2 ^ 37 ≤
    10 ^ j * j.factorial * 2 ^ 63 := by decide

/-- A term of the polynomial next to that of the exponential series. -/
private theorem abs_expmTerm_sub_le {v : ℝ} (h0 : 0 ≤ v) (h1 : v ≤ 7 / 10) {j : ℕ} (hj : j < 13) :
    |(-v) ^ j * ((rd expmTable (12 - j)).toNat : ℝ) / 2 ^ 63 - (-v) ^ j / j.factorial| ≤ 1 / 2 ^ 37 := by
  have hfac : (0 : ℝ) < j.factorial := by exact_mod_cast j.factorial_pos
  have htab : (7 : ℝ) ^ j * |((rd expmTable (12 - j)).toNat : ℝ) * j.factorial - 2 ^ 63| * 2 ^ 37 ≤
      10 ^ j * j.factorial * 2 ^ 63 := by
    have h : (((((rd expmTable (12 - j)).toNat : ℤ) * j.factorial - 2 ^ 63).natAbs : ℕ) : ℝ) =
        |((rd expmTable (12 - j)).toNat : ℝ) * j.factorial - 2 ^ 63| := by
      rw [Nat.cast_natAbs]
      push_cast
      norm_num
    rw [← h]
    exact_mod_cast expmTable_near j hj
  have hpow : v ^ j ≤ (7 / 10) ^ j := pow_le_pow_left₀ h0 h1 j
  generalize ((rd expmTable (12 - j)).toNat : ℝ) = C at *
  have hsplit : (-v) ^ j * C / 2 ^ 63 - (-v) ^ j / j.factorial =
      (-v) ^ j * ((C * j.factorial - 2 ^ 63) / (2 ^ 63 * (j.factorial : ℝ))) := by
    field_simp
  rw [hsplit, abs_mul, abs_pow, abs_neg, abs_of_nonneg h0, abs_div,
    abs_of_pos (by positivity : 0 < 2 ^ 63 * (j.factorial : ℝ))]
  calc v ^ j * (|C * (j.factorial : ℝ) - 2 ^ 63| / (2 ^ 63 * (j.factorial : ℝ)))
      ≤ (7 / 10) ^ j * (|C * (j.factorial : ℝ) - 2 ^ 63| / (2 ^ 63 * (j.factorial : ℝ))) := by gcongr
    _ = 7 ^ j * |C * (j.factorial : ℝ) - 2 ^ 63| / (10 ^ j * (j.factorial : ℝ) * 2 ^ 63) := by
        rw [div_pow]
        field_simp
    _ ≤ 1 / 2 ^ 37 := by
        rw [div_le_div_iff₀ (by positivity) (by positivity), one_mul]
        exact htab

/-- On the range that `BerExp` reduces its argument to, the result is `ccs * exp (-x)`. -/
theorem fprExpmP63_exp {x ccs : UInt64} (hx0 : 0 ≤ fprValue x) (hx1 : fprValue x ≤ 7 / 10) (hc0 : 0 ≤ fprValue ccs)
    (hc1 : fprValue ccs < 1) :
    |((fprExpmP63 x ccs).toNat : ℝ) / 2 ^ 63 - fprValue ccs * Real.exp (-fprValue x)| ≤ 1 / 2 ^ 33 := by
  have hnear := fprExpmP63_near hx0 (hx1.trans_lt (by norm_num)) hc0 hc1
  generalize fprValue x = v at *
  generalize fprValue ccs = c at *
  generalize ((fprExpmP63 x ccs).toNat : ℝ) = e at *
  have hv : |-v| ≤ 7 / 10 := by rwa [abs_neg, abs_of_nonneg hx0]
  have htail := Real.exp_bound (hv.trans (by norm_num)) (n := 13) (by norm_num)
  have hpow : |-v| ^ 13 ≤ (7 / 10) ^ 13 := pow_le_pow_left₀ (abs_nonneg _) hv 13
  have htail' : |Real.exp (-v) - ∑ m ∈ Finset.range 13, (-v) ^ m / m.factorial| ≤ 1 / 2 ^ 37 := by
    refine htail.trans ((mul_le_mul_of_nonneg_right hpow (by positivity)).trans ?_)
    norm_num [Nat.factorial]
  have hsum : |(∑ j ∈ Finset.range 13, (-v) ^ j * ((rd expmTable (12 - j)).toNat : ℝ)) / 2 ^ 63 -
      ∑ m ∈ Finset.range 13, (-v) ^ m / m.factorial| ≤ 13 * (1 / 2 ^ 37) := by
    rw [Finset.sum_div, ← Finset.sum_sub_distrib]
    refine (Finset.abs_sum_le_sum_abs _ _).trans ?_
    calc ∑ j ∈ Finset.range 13, |(-v) ^ j * ((rd expmTable (12 - j)).toNat : ℝ) / 2 ^ 63 - (-v) ^ j / j.factorial|
        ≤ ∑ _j ∈ Finset.range 13, (1 : ℝ) / 2 ^ 37 :=
          Finset.sum_le_sum fun j hj => abs_expmTerm_sub_le hx0 hx1 (Finset.mem_range.1 hj)
      _ = 13 * (1 / 2 ^ 37) := by
          rw [Finset.sum_const, Finset.card_range, nsmul_eq_mul, Nat.cast_ofNat]
  generalize ∑ j ∈ Finset.range 13, (-v) ^ j * ((rd expmTable (12 - j)).toNat : ℝ) = P at *
  generalize ∑ m ∈ Finset.range 13, (-v) ^ m / (m.factorial : ℝ) = T at *
  -- the polynomial is scaled by a factor below one
  have hexp : |c * (P / 2 ^ 63 - Real.exp (-v))| ≤ 14 / 2 ^ 37 := by
    have h : |P / 2 ^ 63 - Real.exp (-v)| ≤ 14 / 2 ^ 37 := by
      rw [abs_le] at hsum htail' ⊢
      constructor <;> linarith
    rw [abs_mul, abs_of_nonneg hc0]
    calc c * |P / 2 ^ 63 - Real.exp (-v)| ≤ 1 * (14 / 2 ^ 37) := mul_le_mul hc1.le h (abs_nonneg _) zero_le_one
      _ = 14 / 2 ^ 37 := one_mul _
  have hdiv : |e / 2 ^ 63 - c * (P / 2 ^ 63)| ≤ 26 / 2 ^ 63 := by
    rw [show e / 2 ^ 63 - c * (P / 2 ^ 63) = (e - c * P) / 2 ^ 63 by ring, abs_div,
      abs_of_pos (by positivity : (0 : ℝ) < 2 ^ 63)]
    gcongr
  rw [mul_sub] at hexp
  rw [abs_le] at hexp hdiv ⊢
  constructor <;> linarith

private theorem value_fprHalf_one : fprValue (fprHalf fprOne) = 1 / 2 := by
  have h1 : signBit (fprHalf fprOne) = 0 := by decide
  have h2 : expBits (fprHalf fprOne) = 1022 := by decide
  have h3 : fracBits (fprHalf fprOne) = 0 := by decide
  rw [fprValue, magnitude_def, h1, h2, h3, if_neg (by norm_num)]
  norm_num

theorem fprExpmP63_exp_half : |((fprExpmP63 (fprHalf fprOne) (fprHalf fprOne)).toNat : ℝ) / 2 ^ 63 -
    1 / 2 * Real.exp (-(1 / 2))| ≤ 1 / 2 ^ 33 := by
  have hval := value_fprHalf_one
  have h0 : 0 ≤ fprValue (fprHalf fprOne) := by
    rw [hval]
    norm_num
  have h1 : fprValue (fprHalf fprOne) ≤ 7 / 10 := by
    rw [hval]
    norm_num
  have h := fprExpmP63_exp h0 h1 h0 (h1.trans_lt (by norm_num))
  rwa [hval] at h

/-! ### The Bernoulli draw -/

/-- `fpr_log2`. -/
def fprLog2 : UInt64 := 4604418534313441775

/-- `fpr_inv_log2`. -/
def fprInvLog2 : UInt64 := 4609176140021203710

/-- The saturation of `s` at 63 in `BerExp`. -/
def saturate63 (sw : UInt32) : UInt32 :=
  sw ^^^ ((sw ^^^ (63 : UInt32)) &&& (0 - (((63 : UInt32) - sw) >>> (31 : UInt32))))

/-- The number `z` of `BerExp`. -/
def berExpThreshold (x ccs : UInt64) : UInt64 :=
  let s := (fprTrunc (fprMul x fprInvLog2)).toInt32
  let r := fprSub x (fprMul (fprOf s.toInt64) fprLog2)
  ((fprExpmP63 r ccs <<< 1) - 1) >>> (saturate63 s.toUInt32).toUInt64

/-- The loop of `BerExp`, with `k` bytes to go: the last difference. -/
def berExpLoop (z : UInt64) : ℕ → Prng → UInt32 × Prng
  | 0, p => (0, p)
  | k + 1, p =>
    let r := prngGetU8 p
    let w := r.1.toUInt32 - ((z >>> UInt64.ofNat (8 * k)).toUInt32 &&& 0xFF)
    if w = 0 ∧ k > 0 then berExpLoop z k r.2 else (w, r.2)

/-- `BerExp`. -/
def berExp (p : Prng) (x ccs : UInt64) : UInt32 × Prng :=
  let r := berExpLoop (berExpThreshold x ccs) 8 p
  (r.1 >>> 31, r.2)

/-- The number of `k` bytes, the first one highest. -/
def bigEndian (s : ℕ → UInt8) : ℕ → ℕ → ℕ
  | _, 0 => 0
  | pos, k + 1 => (s pos).toNat * 2 ^ (8 * k) + bigEndian s (pos + 1) k

private theorem bigEndian_lt (s : ℕ → UInt8) (pos k : ℕ) : bigEndian s pos k < 2 ^ (8 * k) := by
  induction k generalizing pos with
  | zero => exact Nat.one_pos
  | succ k ih =>
    have h := ih (pos + 1)
    have hs := (s pos).toNat_lt
    rw [bigEndian, show 8 * (k + 1) = 8 + 8 * k by ring, pow_add]
    have hmul : ((s pos).toNat + 1) * 2 ^ (8 * k) ≤ 2 ^ 8 * 2 ^ (8 * k) := Nat.mul_le_mul_right _ hs
    rw [Nat.add_mul, one_mul] at hmul
    omega

/-- The order of numbers with a highest digit. -/
theorem digit_lt_iff {B b c e m : ℕ} (he : e < B) (hm : m < B) : b * B + e < c * B + m ↔ b < c ∨ b = c ∧ e < m := by
  have hmul : ∀ {b c : ℕ}, b < c → b * B + B ≤ c * B := fun h => by
    rw [← Nat.succ_mul]
    exact Nat.mul_le_mul_right _ h
  rcases Nat.lt_trichotomy b c with h | rfl | h
  · have := hmul h
    exact iff_of_true (by omega) (.inl h)
  · rw [Nat.add_lt_add_iff_left]
    exact ⟨fun h => .inr ⟨rfl, h⟩, fun h => h.resolve_left (lt_irrefl _) |>.2⟩
  · have := hmul h
    exact iff_of_false (by omega) (by omega)

/-- The difference of a random byte and a byte of the threshold. -/
private theorem byteDiff (b : UInt8) (z : UInt64) {k : ℕ} (hk : k < 8) :
    (b.toUInt32 - ((z >>> UInt64.ofNat (8 * k)).toUInt32 &&& 0xFF) = 0 ↔ b.toNat = z.toNat / 2 ^ (8 * k) % 2 ^ 8) ∧
      (b.toUInt32 - ((z >>> UInt64.ofNat (8 * k)).toUInt32 &&& 0xFF)) >>> 31 =
        if b.toNat < z.toNat / 2 ^ (8 * k) % 2 ^ 8 then 1 else 0 := by
  have hb := b.toNat_lt
  have hz : ((z >>> UInt64.ofNat (8 * k)).toUInt32 &&& 0xFF).toNat = z.toNat / 2 ^ (8 * k) % 2 ^ 8 := by
    rw [UInt32.toNat_and, UInt64.toNat_toUInt32, UInt64.toNat_shiftRight, Nat.shiftRight_eq_div_pow, UInt64.toNat_ofNat',
      show (0xFF : UInt32).toNat = 2 ^ 8 - 1 from rfl, Nat.and_two_pow_sub_one_eq_mod,
      show 8 * k % 2 ^ 64 % 64 = 8 * k by omega]
    omega
  have hlt : z.toNat / 2 ^ (8 * k) % 2 ^ 8 < 2 ^ 8 := Nat.mod_lt _ (by norm_num)
  have hdiff : (b.toUInt32 - ((z >>> UInt64.ofNat (8 * k)).toUInt32 &&& 0xFF)).toNat =
      (2 ^ 32 - z.toNat / 2 ^ (8 * k) % 2 ^ 8 + b.toNat) % 2 ^ 32 := by
    rw [UInt32.toNat_sub, hz, UInt8.toNat_toUInt32]
  generalize z.toNat / 2 ^ (8 * k) % 2 ^ 8 = c at *
  constructor
  · rw [← UInt32.toNat_inj, hdiff, UInt32.toNat_zero]
    omega
  · apply UInt32.toNat_inj.1
    rw [UInt32.toNat_shiftRight, Nat.shiftRight_eq_div_pow, show (31 : UInt32).toNat % 32 = 31 from rfl, hdiff]
    split
    · rw [UInt32.toNat_one]
      omega
    · rw [UInt32.toNat_zero]
      omega

/-- What a comparison reads that stops at the first difference: the `used` bytes at `pos` agree with the highest ones of
the `k` lowest bytes of `z`, except the last one, which differs unless there is no further byte. -/
structure StopsAfter (s : ℕ → UInt8) (z : UInt64) (pos k used : ℕ) : Prop where
  one_le : 1 ≤ used
  le : used ≤ k
  agree : ∀ i, i + 1 < used → (s (pos + i)).toNat = z.toNat / 2 ^ (8 * (k - 1 - i)) % 2 ^ 8
  last : used < k → (s (pos + (used - 1))).toNat ≠ z.toNat / 2 ^ (8 * (k - used)) % 2 ^ 8

/-- A byte that agrees is followed by what the comparison of the other bytes reads. -/
theorem StopsAfter.cons {s : ℕ → UInt8} {z : UInt64} {pos k used : ℕ} (h : StopsAfter s z (pos + 1) (k + 1) used)
    (heq : (s pos).toNat = z.toNat / 2 ^ (8 * (k + 1)) % 2 ^ 8) : StopsAfter s z pos (k + 1 + 1) (used + 1) where
  one_le := Nat.succ_pos used
  le := Nat.succ_le_succ h.le
  agree i hi := by
    cases i with
    | zero => exact heq
    | succ i =>
      have hag := h.agree i (by omega)
      rwa [show pos + 1 + i = pos + (i + 1) by omega, show k + 1 - 1 - i = k + 1 + 1 - 1 - (i + 1) by omega] at hag
  last hlt := by
    have hone := h.one_le
    have hl := h.last (by omega)
    rwa [show pos + 1 + (used - 1) = pos + (used + 1 - 1) by omega,
      show k + 1 - used = k + 1 + 1 - (used + 1) by omega] at hl

/-- The comparison stops at the first byte that differs, and its result is that of the whole numbers. -/
theorem berExpLoop_spec {key : List UInt32} {cc : UInt64} (z : UInt64) {k : ℕ} (hk : k < 8) {p : Prng} {pos : ℕ}
    (h : p.At key cc pos) : (berExpLoop z (k + 1) p).1 >>> 31 =
      (if bigEndian (prngStream key cc) pos (k + 1) < z.toNat % 2 ^ (8 * (k + 1)) then 1 else 0) ∧
      ∃ used, StopsAfter (prngStream key cc) z pos (k + 1) used ∧
        (berExpLoop z (k + 1) p).2.At key cc (pos + used) := by
  induction k generalizing p pos with
  | zero =>
    obtain ⟨hb, hat⟩ := prngGetU8_spec h
    obtain ⟨-, hbit⟩ := byteDiff (prngGetU8 p).1 z hk
    rw [berExpLoop, if_neg (by omega), hbit, hb]
    refine ⟨if_congr ?_ rfl rfl, 1, ⟨le_rfl, le_rfl, fun i hi => absurd hi (by omega), fun hc => absurd hc (by omega)⟩,
      hat⟩
    rw [bigEndian, bigEndian, Nat.mul_zero, pow_zero, mul_one, add_zero, Nat.div_one]
  | succ k ih =>
    obtain ⟨hb, hat⟩ := prngGetU8_spec h
    obtain ⟨hzero, hbit⟩ := byteDiff (prngGetU8 p).1 z hk
    have hmod : z.toNat % 2 ^ (8 * (k + 1 + 1)) =
        z.toNat / 2 ^ (8 * (k + 1)) % 2 ^ 8 * 2 ^ (8 * (k + 1)) + z.toNat % 2 ^ (8 * (k + 1)) := by
      rw [show 8 * (k + 1 + 1) = 8 * (k + 1) + 8 by ring, pow_add, Nat.mod_mul, add_comm, mul_comm (2 ^ (8 * (k + 1)))]
    have hlt : z.toNat % 2 ^ (8 * (k + 1)) < 2 ^ (8 * (k + 1)) := Nat.mod_lt _ (by positivity)
    rw [bigEndian, hmod, if_congr (digit_lt_iff (bigEndian_lt _ _ _) hlt) rfl rfl, berExpLoop]
    rw [hb] at hzero hbit
    rw [hb]
    by_cases heq : (prngStream key cc pos).toNat = z.toNat / 2 ^ (8 * (k + 1)) % 2 ^ 8
    · rw [if_pos ⟨hzero.2 heq, Nat.succ_pos k⟩]
      obtain ⟨h1, used, hstop, hend⟩ := ih (by omega) hat
      refine ⟨h1.trans (if_congr ?_ rfl rfl), used + 1, hstop.cons heq, ?_⟩
      · rw [heq]
        exact ⟨fun h => .inr ⟨rfl, h⟩, fun h => (h.resolve_left (lt_irrefl _)).2⟩
      · rwa [add_comm used, ← add_assoc]
    · rw [if_neg fun hc => heq (hzero.1 hc.1)]
      refine ⟨hbit.trans (if_congr ?_ rfl rfl), 1,
        ⟨le_rfl, by omega, fun i hi => absurd hi (by omega), fun _ => heq⟩, hat⟩
      exact ⟨.inl, fun h => h.resolve_right fun hc => heq hc.1⟩

/-- The whole loop, on eight bytes. -/
private theorem berExpLoop_eight {key : List UInt32} {cc : UInt64} {p : Prng} {pos : ℕ} (h : p.At key cc pos)
    (z : UInt64) :
    (berExpLoop z 8 p).1 >>> 31 = (if bigEndian (prngStream key cc) pos 8 < z.toNat then 1 else 0) ∧
      ∃ used, StopsAfter (prngStream key cc) z pos 8 used ∧ (berExpLoop z 8 p).2.At key cc (pos + used) := by
  have hmod : z.toNat % 2 ^ (8 * (7 + 1)) = z.toNat := Nat.mod_eq_of_lt z.toNat_lt
  have hloop := berExpLoop_spec z (k := 7) (by omega) h
  rw [hmod] at hloop
  exact hloop

private theorem berExp_of_loop {p q : Prng} {x ccs : UInt64} {w : UInt32}
    (h : berExpLoop (berExpThreshold x ccs) 8 p = (w, q)) : berExp p x ccs = (w >>> 31, q) := by
  unfold berExp
  rw [h]

/-- After any draws, `BerExp` compares the next 64 bits of the stream with the threshold; of these bits it reads only
the bytes up to the first one that differs from that of the threshold. -/
theorem berExp_spec (perm : Lanes → Lanes) (src : Shake256) (ds : List Draw) (x ccs : UInt64) :
    ∃ pos used, (berExp (runDraws ds (prngInit perm src).1).2 x ccs).1 = (if bigEndian
      (prngStream (prngInit perm src).1.key ((prngInit perm src).1.cc - (8 : UInt64))) pos 8 <
        (berExpThreshold x ccs).toNat then 1 else 0) ∧
    StopsAfter (prngStream (prngInit perm src).1.key ((prngInit perm src).1.cc - (8 : UInt64)))
      (berExpThreshold x ccs) pos 8 used ∧
    (runDraws ds (prngInit perm src).1).2.At (prngInit perm src).1.key ((prngInit perm src).1.cc - (8 : UInt64)) pos ∧
    (berExp (runDraws ds (prngInit perm src).1).2 x ccs).2.At (prngInit perm src).1.key
      ((prngInit perm src).1.cc - (8 : UInt64)) (pos + used) := by
  obtain ⟨-, -, pos, hat⟩ := runDraws_at ds (prngInit_at perm src)
  have hloop := berExpLoop_eight hat (berExpThreshold x ccs)
  -- the two parts of the result have names before they are compared: the kernel would unfold the shift of the first
  rcases hl : berExpLoop (berExpThreshold x ccs) 8 (runDraws ds (prngInit perm src).1).2 with ⟨w, q⟩
  rw [hl] at hloop
  rw [berExp_of_loop hl]
  simp only at hloop ⊢
  obtain ⟨hbit, used, hstop, hend⟩ := hloop
  exact ⟨pos, used, hbit, hstop, hat, hend⟩

/-! ### The samplers of integers -/

/-- `fpr_inv_2sqrsigma0`. -/
def fprInv2sqrsigma0 : UInt64 := 4594603506513722306

/-- `new_gaussian0_sampler`, with at most `fuel` trials: a zero is kept with probability one half. -/
def newGaussian0Sampler : ℕ → Prng → Option (ℕ × Prng)
  | 0, _ => none
  | fuel + 1, p =>
    let z := gaussian0Sampler p
    if z.1 ≠ 0 then some z
    else
      let b := prngGetU8 z.2
      if b.1 &&& 1 ≠ 0 then some (0, b.2) else newGaussian0Sampler fuel b.2

/-- The loop of `new_sampler`, with at most `fuel` trials. -/
def newSamplerLoop (s : Int32) (r dss ccs : UInt64) : ℕ → Prng → Option (Int32 × Prng)
  | 0, _ => none
  | fuel + 1, p => do
    let z ← newGaussian0Sampler (fuel + 1) p
    let yplus := Int32.ofNat z.1
    let d := prngGetU8 z.2
    let b := d.1.toUInt32.toInt32 &&& 1
    let y := ((b <<< 1) - 1) * yplus
    let x := fprMul (fprSqr (fprSub (fprOf y.toInt64) r)) dss
    let x := fprSub x (fprMul (fprOf (yplus * yplus).toInt64) fprInv2sqrsigma0)
    let e := berExp d.2 x ccs
    if e.1 ≠ 0 then some (s + y, e.2) else newSamplerLoop s r dss ccs fuel e.2

/-- `new_sampler`, with at most `fuel` trials. -/
def newSampler (fuel : ℕ) (sigmaMin : UInt64) (p : Prng) (mu isigma : UInt64) : Option (Int32 × Prng) :=
  let s := (fprRint mu).toInt32
  let r := fprSub mu (fprOf s.toInt64)
  let dss := fprHalf (fprSqr isigma)
  let ccs := fprMul isigma sigmaMin
  newSamplerLoop s r dss ccs fuel p

private theorem newGaussian0Sampler_le {fuel : ℕ} {p : Prng} {z : ℕ × Prng} (h : newGaussian0Sampler fuel p = some z) :
    z.1 ≤ 18 := by
  induction fuel generalizing p with
  | zero => exact absurd h (Option.some_ne_none z).symm
  | succ fuel ih =>
    have hle : (gaussian0Sampler p).1 ≤ 18 := (gaussian0Value_spec _ _).1
    unfold newGaussian0Sampler at h
    simp only at h
    split at h
    · cases h
      exact hle
    · split at h
      · cases h
        exact Nat.zero_le _
      · exact ih h

private theorem and_one_cases (x : Int32) : x &&& 1 = 0 ∨ x &&& 1 = 1 := by
  have h : (x &&& 1).toBitVec = BitVec.setWidth 32 (BitVec.ofBool (x.toBitVec.getLsbD 0)) := by
    rw [Int32.toBitVec_and]
    exact BitVec.and_one_eq_setWidth_ofBool_getLsbD
  cases hb : x.toBitVec.getLsbD 0 with
  | false =>
    rw [hb] at h
    exact .inl (Int32.toBitVec_inj.1 h)
  | true =>
    rw [hb] at h
    exact .inr (Int32.toBitVec_inj.1 h)

/-- The sign of the random bit `b`. -/
private theorem toInt_plusMinus {b : Int32} (hb : b = 0 ∨ b = 1) {k : ℕ} (hk : k < 19) :
    -18 ≤ (((b <<< 1) - 1) * Int32.ofNat k).toInt ∧ (((b <<< 1) - 1) * Int32.ofNat k).toInt ≤ 18 := by
  rcases hb with rfl | rfl
  · revert k
    decide
  · revert k
    decide

/-- Every trial offers an integer at most 18 away from `s`. -/
private theorem newSamplerLoop_near {s : Int32} {r dss ccs : UInt64} {fuel : ℕ} {p : Prng} {z : Int32 × Prng}
    (h : newSamplerLoop s r dss ccs fuel p = some z) : ∃ y : Int32, z.1 = s + y ∧ -18 ≤ y.toInt ∧ y.toInt ≤ 18 := by
  induction fuel generalizing p with
  | zero => exact absurd h (Option.some_ne_none z).symm
  | succ fuel ih =>
    unfold newSamplerLoop at h
    obtain ⟨g, hg, h⟩ := Option.bind_eq_some_iff.1 h
    have hle := newGaussian0Sampler_le hg
    simp only at h
    split at h
    · cases h
      exact ⟨_, rfl, toInt_plusMinus (and_one_cases _) (by omega)⟩
    · exact ih h

/-- More trials do not change a result. -/
private theorem newGaussian0Sampler_mono {n m : ℕ} (hnm : n ≤ m) {p : Prng} {z : ℕ × Prng}
    (h : newGaussian0Sampler n p = some z) : newGaussian0Sampler m p = some z := by
  induction n generalizing p m with
  | zero => exact absurd h (Option.some_ne_none z).symm
  | succ n ih =>
    obtain ⟨m, rfl⟩ : ∃ k, m = k + 1 := ⟨m - 1, by omega⟩
    unfold newGaussian0Sampler at h ⊢
    simp only at h ⊢
    split at h
    · rename_i hz
      rw [if_pos hz]
      exact h
    · rename_i hz
      rw [if_neg hz]
      split at h
      · rename_i hb
        rw [if_pos hb]
        exact h
      · rename_i hb
        rw [if_neg hb]
        exact ih (by omega) h

private theorem newSamplerLoop_mono {s : Int32} {r dss ccs : UInt64} {n m : ℕ} (hnm : n ≤ m) {p : Prng}
    {z : Int32 × Prng} (h : newSamplerLoop s r dss ccs n p = some z) : newSamplerLoop s r dss ccs m p = some z := by
  induction n generalizing p m with
  | zero => exact absurd h (Option.some_ne_none z).symm
  | succ n ih =>
    obtain ⟨m, rfl⟩ : ∃ k, m = k + 1 := ⟨m - 1, by omega⟩
    unfold newSamplerLoop at h ⊢
    obtain ⟨g, hg, h⟩ := Option.bind_eq_some_iff.1 h
    refine Option.bind_eq_some_iff.2 ⟨g, newGaussian0Sampler_mono hnm hg, ?_⟩
    simp only at h ⊢
    split at h
    · rename_i he
      rw [if_pos he]
      exact h
    · rename_i he
      rw [if_neg he]
      exact ih (by omega) h

/-- Whatever the randomness and the deviation are, a sample is at most 37 / 2 away from the center, and it
does not depend on the number of trials that are left. -/
theorem newSampler_near {mu : UInt64} (hmu : |fprValue mu| ≤ 2 ^ 31 - 32) (fuel : ℕ) (sigmaMin : UInt64) (p : Prng)
    (isigma : UInt64) : newSampler fuel sigmaMin p mu isigma = none ∨
      ∃ z q, newSampler fuel sigmaMin p mu isigma = some (z, q) ∧ |(z.toInt : ℝ) - fprValue mu| ≤ 37 / 2 ∧
        ∀ m ≥ fuel, newSampler m sigmaMin p mu isigma = some (z, q) := by
  have hrint := toInt_fprRint (x := mu) (hmu.trans_lt (by norm_num))
  have hround := Rounding.abs_sub_roundEven_le (fprValue mu)
  rw [← hrint] at hround
  have hle : (fprRint mu).toInt ≤ 2 ^ 31 - 31 := by
    have h : ((fprRint mu).toInt : ℝ) ≤ ((2 ^ 31 - 31 : ℤ) : ℝ) := by
      rw [abs_le] at hround hmu
      push_cast
      linarith
    exact_mod_cast h
  have hge : -(2 ^ 31 - 31) ≤ (fprRint mu).toInt := by
    have h : ((-(2 ^ 31 - 31) : ℤ) : ℝ) ≤ ((fprRint mu).toInt : ℝ) := by
      rw [abs_le] at hround hmu
      push_cast
      linarith
    exact_mod_cast h
  have hs : ((fprRint mu).toInt32).toInt = (fprRint mu).toInt := by
    rw [Int64.toInt_toInt32]
    exact Int.bmod_eq_of_le (by omega) (by omega)
  rcases hrun : newSampler fuel sigmaMin p mu isigma with _ | ⟨z, q⟩
  · exact .inl rfl
  · refine .inr ⟨z, q, rfl, ?_, fun m hm => newSamplerLoop_mono hm hrun⟩
    obtain ⟨y, hz, hlo, hhi⟩ := newSamplerLoop_near hrun
    simp only at hz
    have hsum : z.toInt = (fprRint mu).toInt + y.toInt := by
      rw [hz, Int32.toInt_add, hs]
      exact Int.bmod_eq_of_le (by omega) (by omega)
    rw [hsum, Int.cast_add]
    have hlo' : (-18 : ℝ) ≤ (y.toInt : ℝ) := by exact_mod_cast hlo
    have hhi' : (y.toInt : ℝ) ≤ 18 := by exact_mod_cast hhi
    rw [abs_le] at hround ⊢
    constructor <;> linarith

/-- With the buffer of bytes 13 the sample for the center 1 is 4. -/
theorem newSampler_near_one : ∃ q,
    newSampler 1 fprOne ⟨[], 0, List.replicate 512 13, 0⟩ fprOne fprOne = some (4, q) ∧
      |((4 : Int32).toInt : ℝ) - fprValue fprOne| ≤ 37 / 2 ∧
      ∀ m ≥ 1, newSampler m fprOne ⟨[], 0, List.replicate 512 13, 0⟩ fprOne fprOne = some (4, q) := by
  have hfour : (newSampler 1 fprOne ⟨[], 0, List.replicate 512 13, 0⟩ fprOne fprOne).map (fun r => r.1) = some 4 := by
    decide +kernel
  obtain hnone | ⟨z, q, hz, hnear⟩ := newSampler_near (by rw [value_fprOne]; norm_num) 1 fprOne
    ⟨[], 0, List.replicate 512 13, 0⟩ fprOne
  · rw [hnone] at hfour
    cases hfour
  · rw [hz] at hfour
    obtain rfl : z = 4 := Option.some.inj hfour
    exact ⟨q, hz, hnear⟩

end DfVrf.Crypto
