import Mathlib.Algebra.Order.Round
import Mathlib.Algebra.Ring.Int.Parity
import Mathlib.Data.Int.Log
import Mathlib.Tactic.FieldSimp
import Mathlib.Tactic.Linarith
import Mathlib.Tactic.Ring

/-!
# Rounding to nearest even

The numbers with `p` significant bits and an unbounded exponent, and the rounding to the nearest of them.

* `IsSticky.roundEven_div`: an integer whose lowest bit is sticky has all that the rounding needs.
* `IsSticky.stick`: the bits that a shift drops are collected in the lowest bit.
* `roundTo_of_isSticky`: the rounding by the two lowest bits of a sticky integer.
* `abs_sub_roundTo_le`: no number with `p` significant bits is nearer.
-/

namespace Rounding

variable {K : Type*} [Field K] [LinearOrder K]

/-- The integer `m` is `x`, or it is odd and less than one away from it. -/
def IsSticky (x : K) (m : ℤ) : Prop := x = m ∨ Odd m ∧ |x - m| < 1

/-- A shift by `j` bits, where the lowest bit collects those that are dropped. -/
def stick (m j : ℕ) : ℕ := if m % 2 ^ j = 0 then m / 2 ^ j else m / 2 ^ j / 2 * 2 + 1

namespace IsSticky

variable {x : K} {m n : ℤ}

theorem neg (h : IsSticky x m) : IsSticky (-x) (-m) := by
  rcases h with rfl | ⟨hm, h⟩
  · exact .inl (by push_cast; rfl)
  · refine .inr ⟨hm.neg, ?_⟩
    rw [← abs_neg]
    push_cast
    rwa [neg_sub_neg, neg_sub]

/-- The sum with an even number. -/
theorem add_int (h : IsSticky x m) (hn : Even n) : IsSticky (n + x) (n + m) := by
  rcases h with rfl | ⟨hm, h⟩
  · exact .inl (by push_cast; rfl)
  · refine .inr ⟨hn.add_odd hm, ?_⟩
    push_cast
    rwa [add_sub_add_left_eq_sub]

variable [IsStrictOrderedRing K]

theorem lt_iff (h : IsSticky x m) (hn : Even n) : x < n ↔ m < n := by
  rcases h with rfl | ⟨hm, h⟩
  · exact Int.cast_lt
  · rw [abs_lt] at h
    obtain ⟨a, rfl⟩ := hn
    obtain ⟨b, rfl⟩ := hm
    constructor
    · intro hx
      have h1 : ((2 * b + 1 : ℤ) : K) < ((a + a + 1 : ℤ) : K) := by
        push_cast at h hx ⊢
        linarith
      have h2 := Int.cast_lt.1 h1
      omega
    · intro hx
      have h1 : ((2 * b + 1 + 1 : ℤ) : K) ≤ ((a + a : ℤ) : K) := Int.cast_le.2 (by omega)
      push_cast at h h1 ⊢
      linarith

theorem gt_iff (h : IsSticky x m) (hn : Even n) : (n : K) < x ↔ n < m := by
  have h1 := h.neg.lt_iff hn.neg
  rw [Int.cast_neg, neg_lt_neg_iff, neg_lt_neg_iff] at h1
  exact h1

theorem le_iff (h : IsSticky x m) (hn : Even n) : x ≤ n ↔ m ≤ n := by
  rw [← not_lt, ← not_lt, h.gt_iff hn]

theorem ge_iff (h : IsSticky x m) (hn : Even n) : (n : K) ≤ x ↔ n ≤ m := by
  rw [← not_lt, ← not_lt, h.lt_iff hn]

theorem stick {m : ℕ} (h : IsSticky x (m : ℤ)) (j : ℕ) : IsSticky (x / 2 ^ j) (stick m j : ℤ) := by
  rcases Nat.eq_zero_or_pos j with rfl | hj
  · rw [Rounding.stick, pow_zero, pow_zero, if_pos (Nat.mod_one m), Nat.div_one, div_one]
    exact h
  have hpow : (0 : K) < 2 ^ j := by positivity
  have hev : Even (2 ^ j : ℤ) := (even_two).pow_of_ne_zero (by omega)
  have hdiv := Nat.div_add_mod m (2 ^ j)
  unfold Rounding.stick
  split
  · rename_i hmod
    rw [hmod, add_zero] at hdiv
    have hme : Even (m : ℤ) := by
      rw [← hdiv]
      push_cast
      exact hev.mul_right _
    rcases h with rfl | ⟨hm, -⟩
    · refine .inl ?_
      rw [div_eq_iff hpow.ne', ← hdiv, Nat.mul_div_cancel_left _ (by positivity)]
      push_cast
      ring
    · exact absurd hme (Int.not_even_iff_odd.2 hm)
  · rename_i hmod
    have hlt := Nat.mod_lt m (show 0 < 2 ^ j by positivity)
    generalize m / 2 ^ j = q at hdiv ⊢
    -- the number is strictly between the neighbours, like the integer
    have h1 : (q : K) < x / 2 ^ j := by
      have hm : 2 ^ j * q < m := by omega
      have := (h.gt_iff (hev.mul_right (q : ℤ))).2 (by exact_mod_cast hm)
      rw [lt_div_iff₀ hpow, mul_comm]
      push_cast at this
      exact this
    have h2 : x / 2 ^ j < q + 1 := by
      have hm : m < 2 ^ j * (q + 1) := by
        rw [mul_add]
        omega
      have := (h.lt_iff (hev.mul_right ((q + 1 : ℕ) : ℤ))).2 (by exact_mod_cast hm)
      rw [div_lt_iff₀ hpow, mul_comm]
      push_cast at this
      exact this
    have hr : Odd ((q / 2 * 2 + 1 : ℕ) : ℤ) := ⟨(q / 2 : ℕ), by push_cast; ring⟩
    have hr1 : q ≤ q / 2 * 2 + 1 := by omega
    have hr2 : q / 2 * 2 + 1 ≤ q + 1 := by omega
    generalize q / 2 * 2 + 1 = r at hr hr1 hr2
    have h3 : (q : K) ≤ r := Nat.cast_le.2 hr1
    have h4 : (r : K) ≤ q + 1 := by exact_mod_cast hr2
    refine .inr ⟨hr, ?_⟩
    rw [Int.cast_natCast, abs_lt]
    constructor <;> linarith

private theorem stick_mul_two_pow {m j k : ℕ} (hk : k ≤ j) :
    Rounding.stick (m * 2 ^ k) j = Rounding.stick m (j - k) := by
  obtain ⟨i, rfl⟩ : ∃ i, j = i + k := ⟨j - k, by omega⟩
  have hpos : 0 < 2 ^ k := by positivity
  rw [Nat.add_sub_cancel]
  unfold Rounding.stick
  rw [pow_add, Nat.mul_mod_mul_right, Nat.mul_div_mul_right _ _ hpos]
  have hiff : m % 2 ^ i * 2 ^ k = 0 ↔ m % 2 ^ i = 0 := by
    rw [Nat.mul_eq_zero]
    exact or_iff_left hpos.ne'
  rw [if_congr hiff rfl rfl]

/-- Shifts to the left and to the right: an inexact integer is not shifted further to the left than back. -/
theorem stick_scaled {m : ℕ} (h : IsSticky x (m : ℤ)) {j k : ℕ} (hk : k ≤ j ∨ x = m) :
    IsSticky (x * 2 ^ k / 2 ^ j) (Rounding.stick (m * 2 ^ k) j : ℤ) := by
  by_cases hx : x = m
  · refine stick (.inl ?_) j
    rw [hx]
    push_cast
    ring
  · have hkj := hk.resolve_right hx
    rw [stick_mul_two_pow hkj]
    have hdiv : x * 2 ^ k / 2 ^ j = x / 2 ^ (j - k) := by
      rw [div_eq_div_iff (by positivity) (by positivity), mul_assoc, ← pow_add, Nat.add_sub_cancel' hkj]
    rw [hdiv]
    exact stick h (j - k)

end IsSticky

variable [IsStrictOrderedRing K] [FloorRing K]

/-- The nearest integer, and of two that are equally near the even one. -/
def roundEven (x : K) : ℤ :=
  if Int.fract x < 1 - Int.fract x ∨ Int.fract x = 1 - Int.fract x ∧ Even ⌊x⌋ then ⌊x⌋ else ⌊x⌋ + 1

section RoundEven

variable {x : K} {z : ℤ}

theorem abs_sub_roundEven_le (x : K) : |x - roundEven x| ≤ 1 / 2 := by
  have h0 := Int.fract_nonneg x
  have h1 := Int.fract_lt_one x
  have hx := Int.floor_add_fract x
  unfold roundEven
  split
  · rename_i h
    rw [abs_le]
    rcases h with h | ⟨h, -⟩ <;> constructor <;> linarith
  · rename_i h
    have h2 : 1 / 2 ≤ Int.fract x := by
      by_contra hc
      rw [not_le] at hc
      exact h (.inl (by linarith))
    push_cast
    rw [abs_le]
    constructor <;> linarith

private theorem even_roundEven (h : |x - roundEven x| = 1 / 2) : Even (roundEven x) := by
  have h0 := Int.fract_nonneg x
  have h1 := Int.fract_lt_one x
  have hx := Int.floor_add_fract x
  unfold roundEven at h ⊢
  split at h
  · rename_i hc
    rw [if_pos hc]
    rcases hc with hc | hc
    · rw [abs_eq (by norm_num)] at h
      rcases h with h | h <;> exact absurd h (by linarith)
    · exact hc.2
  · rename_i hc
    rw [if_neg hc]
    push_cast at h
    have h2 : Int.fract x = 1 / 2 := by
      rw [abs_eq (by norm_num)] at h
      rcases h with h | h <;> linarith
    have h3 : ¬ Even ⌊x⌋ := fun he => hc (.inr ⟨by linarith, he⟩)
    exact (Int.not_even_iff_odd.1 h3).add_one

/-- An integer that is nearest, and even if another one is equally near, is the result. -/
theorem roundEven_eq (h : |x - z| ≤ 1 / 2) (he : |x - z| = 1 / 2 → Even z) : roundEven x = z := by
  have h1 := abs_sub_roundEven_le x
  have h2 := even_roundEven (x := x)
  generalize roundEven x = w at h1 h2
  by_contra hne
  have hd : |(w : K) - z| ≤ 1 := by
    have := abs_sub_le (w : K) x z
    rw [abs_sub_comm (w : K) x] at this
    linarith
  have hw : |w - z| = 1 := by
    have h3 : |w - z| ≤ 1 := by exact_mod_cast hd
    have h4 : 0 < |w - z| := abs_pos.2 (sub_ne_zero.2 hne)
    omega
  have hsum : |x - w| + |x - z| = 1 := by
    have h5 : (1 : K) ≤ |x - w| + |x - z| := by
      have := abs_sub_le (w : K) x z
      rw [abs_sub_comm (w : K) x, show |(w : K) - z| = 1 by exact_mod_cast hw] at this
      exact this
    linarith
  have hev := h2 (by linarith)
  have hev' := he (by linarith)
  have hodd : Even (w - z) := hev.sub hev'
  rw [← even_abs, hw] at hodd
  exact absurd hodd (by decide)

theorem roundEven_neg (x : K) : roundEven (-x) = -roundEven x := by
  have hx : |-x - ((-roundEven x : ℤ) : K)| = |x - roundEven x| := by
    push_cast
    rw [← abs_neg]
    congr 1
    ring
  refine roundEven_eq (by rw [hx]; exact abs_sub_roundEven_le x) fun h => ?_
  exact (even_roundEven (hx ▸ h)).neg

theorem roundEven_intCast (z : ℤ) : roundEven (z : K) = z :=
  roundEven_eq (by simp) (fun h => by simp at h)

/-- No integer is nearer. -/
theorem abs_sub_roundEven_le_abs_sub (x : K) (z : ℤ) : |x - roundEven x| ≤ |x - z| := by
  by_cases h : roundEven x = z
  · rw [h]
  · have h1 := abs_sub_roundEven_le x
    have h2 : (1 : K) ≤ |(roundEven x : K) - z| := by
      have : 1 ≤ |roundEven x - z| := Int.one_le_abs (sub_ne_zero.2 h)
      exact_mod_cast this
    have h3 := abs_sub_le (roundEven x : K) x z
    rw [abs_sub_comm (roundEven x : K) x] at h3
    linarith

end RoundEven

/-- The quotient by a multiple of four is rounded like that of the integer. -/
theorem IsSticky.roundEven_div {x : K} {m : ℤ} (h : IsSticky x m) {d : ℤ} (hd : Even d) (hpos : 0 < d) :
    roundEven (x / (2 * d)) = roundEven ((m : K) / (2 * d)) := by
  have hd0 : (0 : K) < d := by exact_mod_cast hpos
  have h2d : (0 : K) < 2 * d := by positivity
  generalize hz : roundEven ((m : K) / (2 * d)) = z
  have h1 := abs_sub_roundEven_le ((m : K) / (2 * d))
  have h2 := even_roundEven (x := (m : K) / (2 * d))
  rw [hz, abs_le] at h1
  rw [hz] at h2
  -- the ends of the interval are odd multiples of `d`
  have hlo : Even (d * (2 * z - 1)) := hd.mul_right _
  have hhi : Even (d * (2 * z + 1)) := hd.mul_right _
  have hends : ∀ y : K, (-(1 / 2) ≤ y / (2 * d) - z ↔ ((d * (2 * z - 1) : ℤ) : K) ≤ y) ∧
      (y / (2 * d) - z ≤ 1 / 2 ↔ y ≤ ((d * (2 * z + 1) : ℤ) : K)) := by
    intro y
    have hy : y = y / (2 * d) * (2 * d) := by field_simp
    push_cast
    constructor
    · rw [neg_le_sub_iff_le_add, ← sub_le_iff_le_add, le_div_iff₀ h2d]
      constructor <;> intro hc <;> linarith
    · rw [sub_le_iff_le_add, div_le_iff₀ h2d]
      constructor <;> intro hc <;> linarith
  have hm1 := ((hends m).1.1 h1.1)
  have hm2 := ((hends m).2.1 h1.2)
  have hx1 := (h.ge_iff hlo).2 (Int.cast_le.1 hm1)
  have hx2 := (h.le_iff hhi).2 (Int.cast_le.1 hm2)
  refine roundEven_eq (abs_le.2 ⟨(hends x).1.2 hx1, (hends x).2.2 hx2⟩) fun htie => ?_
  -- at an end of the interval the integer is the number itself
  refine h2 ?_
  have heq : x = m := by
    rcases (abs_eq (by norm_num)).1 htie with ht | ht
    · have hx : ((d * (2 * z + 1) : ℤ) : K) ≤ x := by
        have : x = (1 / 2 + z) * (2 * d) := by
          rw [← ht]
          field_simp
          ring
        rw [this]
        push_cast
        linarith
      have := (h.ge_iff hhi).1 hx
      have hmd : m = d * (2 * z + 1) := le_antisymm (Int.cast_le.1 hm2) this
      rw [hmd]
      exact le_antisymm hx2 hx
    · have hx : x ≤ ((d * (2 * z - 1) : ℤ) : K) := by
        have : x = (-(1 / 2) + z) * (2 * d) := by
          rw [← ht]
          field_simp
          ring
        rw [this]
        push_cast
        linarith
      have := (h.le_iff hlo).1 hx
      have hmd : m = d * (2 * z - 1) := le_antisymm this (Int.cast_le.1 hm1)
      rw [hmd]
      exact le_antisymm hx hx1
  rw [← heq]
  exact htie

/-- The rounding by the lowest bit that is kept and the two bits that are dropped. -/
theorem roundEven_div_four (m : ℕ) :
    roundEven ((m : K) / 4) = (m / 4 + if m % 8 = 3 ∨ m % 8 = 6 ∨ m % 8 = 7 then 1 else 0 : ℕ) := by
  have hr : ∃ r : ℕ, r = m / 4 + (if m % 8 = 3 ∨ m % 8 = 6 ∨ m % 8 = 7 then 1 else 0) ∧ m ≤ 4 * r + 2 ∧
      4 * r ≤ m + 2 ∧ (m = 4 * r + 2 ∨ m + 2 = 4 * r → r % 2 = 0) := by
    refine ⟨_, rfl, ?_⟩
    split <;> omega
  obtain ⟨r, hr, h1, h2, h3⟩ := hr
  rw [← hr]
  have hx : (m : K) / 4 - ((r : ℤ) : K) = (m - 4 * r) / 4 := by
    rw [Int.cast_natCast]
    ring
  have h1' : (m : K) ≤ 4 * r + 2 := by exact_mod_cast h1
  have h2' : (4 * r : K) ≤ m + 2 := by exact_mod_cast h2
  refine roundEven_eq ?_ fun h => ?_
  · rw [hx, abs_le]
    constructor <;> linarith
  · rw [hx, abs_eq (by norm_num)] at h
    have htie : m = 4 * r + 2 ∨ m + 2 = 4 * r := by
      rcases h with h | h
      · have : (m : K) = 4 * r + 2 := by linarith
        exact .inl (by exact_mod_cast this)
      · have : (m : K) + 2 = 4 * r := by linarith
        exact .inr (by exact_mod_cast this)
    rw [Int.even_coe_nat]
    exact Nat.even_iff.2 (h3 htie)

/-- The unit in the last place of the numbers with `p` significant bits that have the magnitude of `x`. -/
def ulp (p : ℕ) (x : K) : K := ((2 : ℕ) : K) ^ (Int.log 2 |x| + 1 - p)

/-- The nearest number with `p` significant bits, of two the one with an even integer as significand. -/
def roundTo (p : ℕ) (x : K) : K := roundEven (x / ulp p x) * ulp p x

/-- A number with at most `p` significant bits. -/
def HasPrecision (p : ℕ) (x : K) : Prop := ∃ m e : ℤ, |m| < 2 ^ p ∧ x = m * ((2 : ℕ) : K) ^ e

section RoundTo

variable {p : ℕ} {x z : K}

omit [IsStrictOrderedRing K] in
theorem ulp_def (p : ℕ) (x : K) : ulp p x = 2 ^ (Int.log 2 |x| + 1 - p) := by
  rw [ulp, Nat.cast_ofNat]

private theorem ulp_pos (p : ℕ) (x : K) : 0 < ulp p x := by
  rw [ulp_def]
  exact zpow_pos two_pos _

omit [IsStrictOrderedRing K] in
private theorem ulp_neg (p : ℕ) (x : K) : ulp p (-x) = ulp p x := by
  rw [ulp, abs_neg, ulp]

theorem roundTo_neg (p : ℕ) (x : K) : roundTo p (-x) = -roundTo p x := by
  rw [roundTo, ulp_neg, neg_div, roundEven_neg, Int.cast_neg, neg_mul, roundTo]

private theorem roundTo_zero (p : ℕ) : roundTo p (0 : K) = 0 := by
  rw [roundTo, zero_div, show (0 : K) = ((0 : ℤ) : K) by norm_num, roundEven_intCast, Int.cast_zero, zero_mul]

/-- The magnitude of a number between two powers of two. -/
theorem log_abs_eq {e : ℤ} (h1 : 2 ^ e ≤ |x|) (h2 : |x| < 2 ^ (e + 1)) : Int.log 2 |x| = e := by
  have hpos : 0 < |x| := (zpow_pos two_pos e).trans_le h1
  have hle := (Int.zpow_le_iff_le_log (b := 2) one_lt_two hpos).1 (by exact_mod_cast h1)
  have hlt := (Int.lt_zpow_iff_log_lt (b := 2) one_lt_two hpos).1 (by exact_mod_cast h2)
  omega

private theorem zpow_log_le (hx : x ≠ 0) : 2 ^ Int.log 2 |x| ≤ |x| := by
  have := Int.zpow_log_le_self (b := 2) one_lt_two (abs_pos.2 hx)
  exact_mod_cast this

/-- A sticky integer of `p + 2` bits is rounded by its two lowest bits. -/
theorem roundTo_of_isSticky {v : K} {m : ℕ} (h : IsSticky v (m : ℤ)) (h1 : 2 ^ (p + 1) ≤ m) (h2 : m < 2 ^ (p + 2))
    (e : ℤ) : roundTo p (v * 2 ^ e) = roundEven ((m : K) / 4) * 2 ^ (e + 2) := by
  have hv1 := (h.ge_iff ((even_two (α := ℤ)).pow_of_ne_zero (Nat.succ_ne_zero p))).2 (by exact_mod_cast h1)
  have hv2 := (h.lt_iff ((even_two (α := ℤ)).pow_of_ne_zero (Nat.succ_ne_zero (p + 1)))).2 (by exact_mod_cast h2)
  push_cast at hv1 hv2
  have hpos : (0 : K) < 2 ^ e := zpow_pos two_pos e
  have habs : |v * 2 ^ e| = v * 2 ^ e := abs_of_pos (mul_pos (lt_of_lt_of_le (by positivity) hv1) hpos)
  have hlog : Int.log 2 |v * 2 ^ e| = (p + 1 : ℕ) + e := by
    refine log_abs_eq ?_ ?_
    · rw [habs, zpow_add₀ two_ne_zero, zpow_natCast]
      exact mul_le_mul_of_nonneg_right hv1 hpos.le
    · rw [habs, show ((p + 1 : ℕ) : ℤ) + e + 1 = ((p + 2 : ℕ) : ℤ) + e by push_cast; ring, zpow_add₀ two_ne_zero,
        zpow_natCast]
      exact mul_lt_mul_of_pos_right hv2 hpos
  have hulp : ulp p (v * 2 ^ e) = 2 ^ (e + 2) := by
    rw [ulp_def, hlog]
    congr 1
    push_cast
    ring
  have hdiv : v * 2 ^ e / 2 ^ (e + 2) = v / (2 * (2 : ℤ)) := by
    rw [zpow_add₀ two_ne_zero, mul_comm, mul_div_mul_left _ _ hpos.ne']
    norm_num
  rw [roundTo, hulp, hdiv, h.roundEven_div even_two two_pos]
  norm_num

/-- A multiple of the unit in the last place that is nearer than half of it. -/
theorem roundTo_eq {k : ℤ} (hz : z = k * ulp p x) (h : |x - z| < ulp p x / 2) : roundTo p x = z := by
  have hu := ulp_pos p x
  have hdiv : x / ulp p x - k = (x - z) / ulp p x := by
    rw [hz]
    field_simp
  have habs : |x / ulp p x - k| < 1 / 2 := by
    rw [hdiv, abs_div, abs_of_pos hu, div_lt_iff₀ hu]
    linarith
  rw [roundTo, roundEven_eq habs.le (fun hc => absurd hc habs.ne), hz]

/-- The error is at most half a unit in the last place. -/
private theorem abs_sub_roundTo_le_ulp (p : ℕ) (x : K) : |x - roundTo p x| ≤ ulp p x / 2 := by
  have hu := ulp_pos p x
  have h := mul_le_mul_of_nonneg_right (abs_sub_roundEven_le (x / ulp p x)) hu.le
  rw [← abs_of_pos hu, ← abs_mul, abs_of_pos hu, sub_mul, div_mul_cancel₀ _ hu.ne'] at h
  calc |x - roundTo p x| ≤ 1 / 2 * ulp p x := h
    _ = ulp p x / 2 := by ring

/-- The relative error. -/
theorem abs_sub_roundTo_le_mul (p : ℕ) (x : K) : |x - roundTo p x| ≤ |x| / 2 ^ p := by
  by_cases hx : x = 0
  · rw [hx, roundTo_zero, sub_zero, abs_zero, zero_div]
  refine (abs_sub_roundTo_le_ulp p x).trans ?_
  rw [le_div_iff₀ (by positivity)]
  calc ulp p x / 2 * 2 ^ p = 2 ^ Int.log 2 |x| := by
        rw [ulp_def, ← zpow_natCast, zpow_sub₀ two_ne_zero, zpow_add₀ two_ne_zero, zpow_one]
        field_simp
    _ ≤ |x| := zpow_log_le hx

/-- A number with `p` significant bits and at least the magnitude is a multiple of the unit in the last place. -/
private theorem HasPrecision.exists_mul_ulp (hz : HasPrecision p z) (h : 2 ^ Int.log 2 |x| ≤ |z|) :
    ∃ k : ℤ, z = k * ulp p x := by
  obtain ⟨m, e, hm, rfl⟩ := hz
  rw [Nat.cast_ofNat] at h ⊢
  have hm' : |(m : K)| < 2 ^ p := by exact_mod_cast hm
  have he : (0 : K) < 2 ^ e := zpow_pos two_pos e
  rw [abs_mul, abs_of_pos he] at h
  have hlt : (2 : K) ^ Int.log 2 |x| < 2 ^ ((p : ℤ) + e) := by
    rw [zpow_add₀ two_ne_zero, zpow_natCast]
    exact h.trans_lt (mul_lt_mul_of_pos_right hm' he)
  have hle := (zpow_lt_zpow_iff_right₀ one_lt_two).1 hlt
  obtain ⟨j, hj⟩ : ∃ j : ℕ, e = Int.log 2 |x| + 1 - p + j := ⟨(e - (Int.log 2 |x| + 1 - p)).toNat, by omega⟩
  refine ⟨m * 2 ^ j, ?_⟩
  rw [hj, zpow_add₀ two_ne_zero, zpow_natCast, ulp_def]
  push_cast
  ring

/-- No number with `p` significant bits is nearer. -/
theorem abs_sub_roundTo_le (hp : 1 ≤ p) (hz : HasPrecision p z) : |x - roundTo p x| ≤ |x - z| := by
  have hu := ulp_pos p x
  have hmul : ∀ k : ℤ, |x - roundTo p x| ≤ |x - k * ulp p x| := by
    intro k
    have h := mul_le_mul_of_nonneg_right (abs_sub_roundEven_le_abs_sub (x / ulp p x) k) hu.le
    rw [← abs_of_pos hu, ← abs_mul, ← abs_mul, abs_of_pos hu, sub_mul, sub_mul, div_mul_cancel₀ _ hu.ne'] at h
    exact h
  by_cases hx : x = 0
  · rw [hx, roundTo_zero, sub_zero, abs_zero]
    exact abs_nonneg _
  by_cases h : 2 ^ Int.log 2 |x| ≤ |z|
  · obtain ⟨k, rfl⟩ := hz.exists_mul_ulp h
    exact hmul k
  -- a smaller number is not nearer than the power of two below
  · have hpow : (2 : K) ^ Int.log 2 |x| = ((2 ^ (p - 1) : ℤ) : K) * ulp p x := by
      rw [ulp_def]
      push_cast
      rw [← zpow_natCast, ← zpow_add₀ two_ne_zero]
      congr 1
      push_cast [hp]
      ring
    have hle := zpow_log_le hx
    have hdist : |x| - 2 ^ Int.log 2 |x| ≤ |x - z| := by
      have := abs_sub_abs_le_abs_sub x z
      linarith [not_le.1 h]
    rcases le_total 0 x with h0 | h0
    · have := hmul (2 ^ (p - 1))
      rw [← hpow] at this
      rw [abs_of_nonneg h0] at hle hdist this
      rw [abs_of_nonneg (sub_nonneg.2 hle)] at this
      exact this.trans hdist
    · have := hmul (-2 ^ (p - 1))
      rw [Int.cast_neg, neg_mul, ← hpow, sub_neg_eq_add] at this
      rw [abs_of_nonpos h0] at hle hdist this
      rw [abs_of_nonpos (show x + 2 ^ Int.log 2 (-x) ≤ 0 by linarith)] at this
      linarith

end RoundTo

end Rounding
