import DfVrf.Lib.Negacyclic
import Mathlib.RingTheory.AdjoinRoot
import Mathlib.RingTheory.Polynomial.Resultant.Basic
import Mathlib.FieldTheory.IsAlgClosed.AlgebraicClosure
import Mathlib.Algebra.CharP.Two
import Mathlib.FieldTheory.Finite.Basic

/-!
# Norms and resultants of negacyclic polynomials

The norm of `f = f₀(X²) + X f₁(X²)` modulo `X ^ (2 * n) + 1` is `f₀² - X f₁²` modulo `X ^ n + 1`, the polynomial
with `N(X²) = f(X) f(-X)`.

* `fwd_norm`: in the transformed domain the norm multiplies neighbours.
* `res_eq_normAt`: after all steps the norm is the resultant with `X ^ (2 ^ L) + 1`.
* `res_emod_two`: modulo two this resultant is the sum of the coefficients.
-/

open Polynomial

namespace Negacyclic

/-! ### The norm -/

section Norm

variable {R : Type*} [CommRing R]

/-- The product modulo `X ^ n + 1`, by the coefficients. -/
def conv (n : ℕ) (a b : ℕ → R) (k : ℕ) : R :=
  ∑ i ∈ Finset.range n, if i ≤ k then a i * b (k - i) else -(a i * b (k + n - i))

/-- The product with `X` modulo `X ^ n + 1`. -/
def timesX (n : ℕ) (a : ℕ → R) (k : ℕ) : R := if k = 0 then -a (n - 1) else a (k - 1)

/-- The norm from degree `2 * n` to degree `n`. -/
def norm (n : ℕ) (a : ℕ → R) (k : ℕ) : R :=
  conv n (fun i => a (2 * i)) (fun i => a (2 * i)) k -
    timesX n (conv n (fun i => a (2 * i + 1)) fun i => a (2 * i + 1)) k

/-- The norm after `d` steps from degree `2 ^ L`. -/
def normAt (L : ℕ) (a : ℕ → R) : ℕ → ℕ → R
  | 0 => a
  | d + 1 => norm (2 ^ (L - (d + 1))) (normAt L a d)

section Map

variable {S : Type*} [CommRing S] (φ : R →+* S)

theorem map_conv (n : ℕ) (a b : ℕ → R) (k : ℕ) :
    φ (conv n a b k) = conv n (fun i => φ (a i)) (fun i => φ (b i)) k := by
  unfold conv
  rw [map_sum]
  refine Finset.sum_congr rfl fun i _ => ?_
  split
  · rw [map_mul]
  · rw [map_neg, map_mul]

theorem map_norm (n : ℕ) (a : ℕ → R) (k : ℕ) : φ (norm n a k) = norm n (fun i => φ (a i)) k := by
  unfold norm timesX
  rw [map_sub, map_conv]
  split
  · rw [map_neg, map_conv]
  · rw [map_conv]

end Map

/-- The product with one monomial, at a root of the modulus. -/
private theorem sum_wrapped {n i : ℕ} (hi : i < n) (b : ℕ → R) {r : R} (hr : r ^ n = -1) :
    ∑ k ∈ Finset.range n, (if i ≤ k then b (k - i) else -b (k + n - i)) * r ^ k =
      r ^ i * ∑ j ∈ Finset.range n, b j * r ^ j := by
  obtain ⟨m, rfl⟩ : ∃ m, n = i + m := ⟨n - i, by omega⟩
  have hlow : ∑ k ∈ Finset.range i, (if i ≤ k then b (k - i) else -b (k + (i + m) - i)) * r ^ k =
      r ^ i * ∑ k ∈ Finset.range i, b (m + k) * r ^ (m + k) := by
    rw [Finset.mul_sum]
    refine Finset.sum_congr rfl fun k hk => ?_
    have hk' := Finset.mem_range.1 hk
    rw [if_neg (by omega), show k + (i + m) - i = m + k by omega, pow_add r m k]
    rw [pow_add] at hr
    linear_combination (-(b (m + k) * r ^ k)) * hr
  have hhigh : ∑ k ∈ Finset.range m, (if i ≤ i + k then b (i + k - i) else -b (i + k + (i + m) - i)) * r ^ (i + k) =
      r ^ i * ∑ k ∈ Finset.range m, b k * r ^ k := by
    rw [Finset.mul_sum]
    refine Finset.sum_congr rfl fun k _ => ?_
    rw [if_pos (by omega), show i + k - i = k by omega, pow_add]
    ring
  rw [Finset.sum_range_add, hlow, hhigh, Nat.add_comm i m, Finset.sum_range_add]
  ring

private theorem eval_conv (n : ℕ) (a b : ℕ → R) {r : R} (hr : r ^ n = -1) :
    ∑ k ∈ Finset.range n, conv n a b k * r ^ k =
      (∑ i ∈ Finset.range n, a i * r ^ i) * ∑ j ∈ Finset.range n, b j * r ^ j := by
  have hterm : ∀ k i : ℕ, (if i ≤ k then a i * b (k - i) else -(a i * b (k + n - i))) * r ^ k =
      a i * ((if i ≤ k then b (k - i) else -b (k + n - i)) * r ^ k) := by
    intro k i
    split <;> ring
  simp only [conv, Finset.sum_mul, hterm]
  rw [Finset.sum_comm]
  refine Finset.sum_congr rfl fun i hi => ?_
  rw [← Finset.mul_sum, sum_wrapped (Finset.mem_range.1 hi) b hr, mul_assoc]

private theorem eval_timesX {n : ℕ} (hn : 0 < n) (a : ℕ → R) {r : R} (hr : r ^ n = -1) :
    ∑ k ∈ Finset.range n, timesX n a k * r ^ k = r * ∑ k ∈ Finset.range n, a k * r ^ k := by
  obtain ⟨m, rfl⟩ : ∃ m, n = m + 1 := ⟨n - 1, by omega⟩
  rw [Finset.sum_range_succ', Finset.sum_range_succ, mul_add, Finset.mul_sum]
  simp only [timesX, Nat.add_sub_cancel, if_true, Nat.succ_ne_zero, if_false, pow_zero, mul_one]
  rw [pow_succ] at hr
  have hsum : ∀ k, a k * r ^ (k + 1) = r * (a k * r ^ k) := by
    intro k
    rw [pow_succ]
    ring
  simp only [hsum]
  linear_combination -a m * hr

/-- `N(r²) = f(r) f(-r)`. -/
theorem eval_norm {n : ℕ} (hn : 0 < n) (a : ℕ → R) {r : R} (hr : (r ^ 2) ^ n = -1) :
    ∑ k ∈ Finset.range n, norm n a k * (r ^ 2) ^ k =
      (∑ u ∈ Finset.range (2 * n), a u * r ^ u) * ∑ u ∈ Finset.range (2 * n), a u * (-r) ^ u := by
  have hsplit : ∀ s : R, s ^ 2 = r ^ 2 → ∑ u ∈ Finset.range (2 * n), a u * s ^ u =
      (∑ i ∈ Finset.range n, a (2 * i) * (r ^ 2) ^ i) + s * ∑ i ∈ Finset.range n, a (2 * i + 1) * (r ^ 2) ^ i := by
    intro s hs
    rw [sum_range_two_mul, Finset.mul_sum]
    congr 1
    · refine Finset.sum_congr rfl fun i _ => ?_
      rw [pow_mul, hs]
    · refine Finset.sum_congr rfl fun i _ => ?_
      rw [pow_succ, pow_mul, hs]
      ring
  rw [hsplit r rfl, hsplit (-r) (neg_sq r)]
  simp only [norm, sub_mul, Finset.sum_sub_distrib]
  rw [eval_conv n _ _ hr, eval_timesX hn _ hr, eval_conv n _ _ hr]
  ring

end Norm

/-! ### The norm in the transformed domain -/

section Transform

variable {R : Type*} [CommRing R] {P : ℕ → R} {L : ℕ}

theorem IsTable.mono {M : ℕ} (hP : IsTable P L) (hM : M ≤ L) : IsTable P M where
  one := hP.one
  even i h1 hi := hP.even i h1 (lt_of_lt_of_le hi (Nat.pow_le_pow_right (by omega) (by omega)))
  odd i h1 hi := hP.odd i h1 (lt_of_lt_of_le hi (Nat.pow_le_pow_right (by omega) (by omega)))

private theorem root_even (P : ℕ → R) (k e : ℕ) : root P (k + 1) (2 * e) = P (2 ^ k + e) := by
  rw [root, if_pos (by omega), show 2 * e / 2 = e by omega]

private theorem root_odd (P : ℕ → R) (k e : ℕ) : root P (k + 1) (2 * e + 1) = -P (2 ^ k + e) := by
  rw [root, if_neg (by omega), show (2 * e + 1) / 2 = e by omega]

/-- The norm multiplies neighbouring entries. -/
theorem fwd_norm (hP : IsTable P (L + 1)) (a : ℕ → R) {e : ℕ} (he : e < 2 ^ L) :
    fwd P L L (norm (2 ^ L) a) e = fwd P (L + 1) (L + 1) a (2 * e) * fwd P (L + 1) (L + 1) a (2 * e + 1) := by
  have hsq := hP.sq (k := L) (by omega) he
  have hroot : (P (2 ^ L + e) ^ 2) ^ 2 ^ L = -1 := by
    rw [hsq]
    exact hP.root_pow (by omega) he
  rw [fwd_eq_sum (hP.mono (by omega)) _ he, fwd_eq_sum hP _ (by rw [pow_succ]; omega),
    fwd_eq_sum hP _ (by rw [pow_succ]; omega), root_even, root_odd, ← hsq, eval_norm (by positivity) a hroot,
    pow_succ, mul_comm (2 ^ L) 2]

private theorem prod_range_two_mul {M : Type*} [CommMonoid M] (f : ℕ → M) (n : ℕ) :
    ∏ u ∈ Finset.range (2 * n), f u = ∏ u ∈ Finset.range n, f (2 * u) * f (2 * u + 1) := by
  induction n with
  | zero => rfl
  | succ n ih =>
    rw [show 2 * (n + 1) = 2 * n + 1 + 1 by ring, Finset.prod_range_succ, Finset.prod_range_succ, ih,
      Finset.prod_range_succ, mul_assoc]

/-- The modulus is the product over the roots of the last level. -/
private theorem prod_root (hP : IsTable P L) {k : ℕ} (hk : k ≤ L) :
    ∏ e ∈ Finset.range (2 ^ k), (X - C (root P k e)) = X ^ 2 ^ k + 1 := by
  induction k with
  | zero => simp [root]
  | succ k ih =>
    have hpair : ∀ e ∈ Finset.range (2 ^ k), (X - C (root P (k + 1) (2 * e))) * (X - C (root P (k + 1) (2 * e + 1))) =
        (X - C (root P k e)).comp (X ^ 2) := by
      intro e he
      rw [root_even, root_odd, ← hP.sq (by omega) (Finset.mem_range.1 he), sub_comp, X_comp, C_comp, C_neg, C_pow]
      ring
    rw [pow_succ, mul_comm (2 ^ k) 2, prod_range_two_mul, Finset.prod_congr rfl hpair, ← prod_comp, ih (by omega)]
    simp only [add_comp, pow_comp, X_comp, one_comp]
    rw [← pow_mul]

/-- A table of iterated square roots. -/
def sqrtTable (s : R → R) : ℕ → R
  | 0 => 1
  | 1 => s (-1)
  | n + 2 => if n % 2 = 0 then s (sqrtTable s (n / 2 + 1)) else s (-sqrtTable s (n / 2 + 1))

theorem isTable_sqrtTable {s : R → R} (hs : ∀ x, s x ^ 2 = x) (L : ℕ) : IsTable (sqrtTable s) L where
  one := by rw [sqrtTable, hs]
  even i h1 _ := by
    obtain ⟨k, rfl⟩ : ∃ k, i = k + 1 := ⟨i - 1, by omega⟩
    rw [show 2 * (k + 1) = 2 * k + 2 by ring, sqrtTable, if_pos (by omega), hs, show 2 * k / 2 + 1 = k + 1 by omega]
  odd i h1 _ := by
    obtain ⟨k, rfl⟩ : ∃ k, i = k + 1 := ⟨i - 1, by omega⟩
    rw [show 2 * (k + 1) + 1 = 2 * k + 1 + 2 by ring, sqrtTable, if_neg (by omega), hs,
      show (2 * k + 1) / 2 + 1 = k + 1 by omega]

end Transform

/-! ### The resultant -/

section Resultant

variable {R : Type*} [CommRing R]

/-- The resultant of a polynomial with `X ^ n + 1`. -/
noncomputable def res (n : ℕ) (a : ℕ → R) : R := resultant (poly n a) (X ^ n + 1)

private theorem natDegree_poly_le {n : ℕ} (hn : 0 < n) (a : ℕ → R) : (poly n a).natDegree ≤ n - 1 := by
  unfold poly
  refine natDegree_sum_le_of_forall_le _ _ fun u hu => ?_
  have hu' := Finset.mem_range.1 hu
  exact (natDegree_C_mul_X_pow_le _ _).trans (by omega)

private theorem natDegree_modulus [Nontrivial R] (n : ℕ) : (X ^ n + 1 : R[X]).natDegree = n := by
  rw [← C_1, natDegree_X_pow_add_C]

/-- Both definitions of the product agree. -/
theorem mulMod_eq_conv [Nontrivial R] {n : ℕ} (a b : ℕ → R) {k : ℕ} (hk : k < n) : mulMod n a b k = conv n a b k := by
  have hn : 0 < n := by omega
  have hmonic := monic_modulus (R := R) hn
  -- the residue class of `X` is a root of `-1`
  obtain ⟨φ, x, hx, hker⟩ : ∃ (φ : R →+* AdjoinRoot (X ^ n + 1 : R[X])) (x : AdjoinRoot (X ^ n + 1 : R[X])),
    x ^ n = -1 ∧
      ∀ f : R[X], f.eval₂ φ x = AdjoinRoot.mk _ f := by
    refine ⟨AdjoinRoot.of _, AdjoinRoot.root _, ?_, fun f => AdjoinRoot.aeval_eq f⟩
    have h := AdjoinRoot.eval₂_root (X ^ n + 1 : R[X])
    rw [eval₂_add, eval₂_X_pow, eval₂_one] at h
    exact eq_neg_of_add_eq_zero_left h
  have heval : ∀ c : ℕ → R, (poly n c).eval₂ φ x = ∑ u ∈ Finset.range n, φ (c u) * x ^ u := by
    intro c
    rw [poly, eval₂_finsetSum]
    exact Finset.sum_congr rfl fun u _ => by rw [eval₂_mul, eval₂_C, eval₂_X_pow]
  have hconv : (poly n (conv n a b)).eval₂ φ x = (poly n a * poly n b).eval₂ φ x := by
    rw [eval₂_mul, heval, heval, heval, ← eval_conv n _ _ hx]
    exact Finset.sum_congr rfl fun u _ => by rw [map_conv]
  rw [hker, hker, AdjoinRoot.mk_eq_mk] at hconv
  have hmod : (poly n a * poly n b) %ₘ (X ^ n + 1) = poly n (conv n a b) := by
    have hsub := (modByMonic_eq_zero_iff_dvd hmonic).2 hconv
    rw [sub_modByMonic, sub_eq_zero] at hsub
    rw [← hsub]
    refine (modByMonic_eq_self_iff hmonic).2 (degree_lt_degree ?_)
    rw [natDegree_modulus]
    exact lt_of_le_of_lt (natDegree_poly_le hn _) (by omega)
  rw [mulMod, hmod, poly, finsetSum_coeff]
  simp only [coeff_C_mul_X_pow]
  rw [Finset.sum_ite_eq, if_pos (Finset.mem_range.2 hk)]

/-- The resultant is the product of the transform, up to its sign. -/
private theorem resultant_eq_prod_fwd [IsDomain R] {P : ℕ → R} {L m : ℕ} (hP : IsTable P L) (a : ℕ → R)
    (hm : (poly (2 ^ L) a).natDegree ≤ m) : resultant (poly (2 ^ L) a) (X ^ 2 ^ L + 1) m (2 ^ L) =
      ((-1) ^ m) ^ 2 ^ L * ∏ e ∈ Finset.range (2 ^ L), fwd P L L a e := by
  have hlead : ∏ e ∈ Finset.range (2 ^ L), (X - C (root P L e)).leadingCoeff ≠ 0 := by
    simp [leadingCoeff_X_sub_C]
  have hprod := resultant_prod_right (Finset.range (2 ^ L)) (poly (2 ^ L) a) (fun e => X - C (root P L e)) m hm hlead
  have hfactor : ∀ e ∈ Finset.range (2 ^ L), resultant (poly (2 ^ L) a) (X - C (root P L e)) m =
      (-1) ^ m * fwd P L L a e := by
    intro e he
    rw [natDegree_X_sub_C, resultant_X_sub_C_right _ _ _ hm, eval_poly, fwd_eq_sum hP a (Finset.mem_range.1 he)]
  rw [prod_root hP le_rfl, natDegree_modulus] at hprod
  rw [hprod, Finset.prod_congr rfl hfactor, Finset.prod_mul_distrib, Finset.prod_const, Finset.card_range]

section Cast

variable {S : Type*} [CommRing S] (φ : ℤ →+* S)

private theorem map_poly (n : ℕ) (a : ℕ → ℤ) : (poly n a).map φ = poly n fun e => φ (a e) := by
  simp [poly, Polynomial.map_sum]

/-- The resultant in another ring, with the degree that it has there. -/
private theorem map_res (n : ℕ) (a : ℕ → ℤ) :
    φ (res n a) = resultant (poly n fun e => φ (a e)) (X ^ n + 1) (poly n a).natDegree n := by
  rw [res, natDegree_modulus, ← resultant_map_map, map_poly, Polynomial.map_add, Polynomial.map_pow, map_X,
    Polynomial.map_one]

private theorem natDegree_poly_map_le (n : ℕ) (a : ℕ → ℤ) :
    (poly n fun e => φ (a e)).natDegree ≤ (poly n a).natDegree := by
  rw [← map_poly]
  exact natDegree_map_le

/-- The resultant is the product of the transform. -/
private theorem map_res_eq_prod [IsDomain S] {P : ℕ → S} {L : ℕ} (hP : IsTable P L) (a : ℕ → ℤ) :
    φ (res (2 ^ L) a) = ∏ e ∈ Finset.range (2 ^ L), fwd P L L (fun e => φ (a e)) e := by
  have hsign : ((-1 : S) ^ (poly (2 ^ L) a).natDegree) ^ 2 ^ L = 1 := by
    rcases Nat.eq_zero_or_pos L with rfl | hL
    · have h0 := natDegree_poly_le (show 0 < 2 ^ 0 by omega) a
      rw [show (poly (2 ^ 0) a).natDegree = 0 by omega]
      simp
    · rw [← pow_mul]
      exact Even.neg_one_pow ((Nat.even_pow.2 ⟨even_two, by omega⟩).mul_left _)
  rw [map_res, resultant_eq_prod_fwd hP _ (natDegree_poly_map_le φ _ a), hsign, one_mul]

end Cast

/-- The norm keeps the resultant. -/
private theorem res_norm (L : ℕ) (a : ℕ → ℤ) : res (2 ^ L) (norm (2 ^ L) a) = res (2 ^ (L + 1)) a := by
  choose s hs using fun x : AlgebraicClosure ℚ => IsAlgClosed.exists_pow_nat_eq x two_pos
  have hP := isTable_sqrtTable hs (L + 1)
  obtain ⟨φ, hφ⟩ : ∃ φ : ℤ →+* AlgebraicClosure ℚ, φ = Int.castRingHom _ := ⟨_, rfl⟩
  have hinj : Function.Injective φ := by
    rw [hφ]
    exact Int.cast_injective
  apply hinj
  rw [map_res_eq_prod φ (hP.mono (by omega)), map_res_eq_prod φ hP, pow_succ, mul_comm (2 ^ L) 2, prod_range_two_mul]
  refine Finset.prod_congr rfl fun e he => ?_
  rw [← fwd_norm hP _ (Finset.mem_range.1 he)]
  exact fwd_congr le_rfl (fun k _ => map_norm φ _ a k) (Finset.mem_range.1 he)

private theorem res_normAt (L : ℕ) (a : ℕ → ℤ) {d : ℕ} (hd : d ≤ L) :
    res (2 ^ (L - d)) (normAt L a d) = res (2 ^ L) a := by
  induction d with
  | zero => rfl
  | succ d ih =>
    rw [normAt, res_norm, show L - (d + 1) + 1 = L - d by omega, ih (by omega)]

/-- The last norm is the resultant. -/
theorem res_eq_normAt (L : ℕ) (a : ℕ → ℤ) : res (2 ^ L) a = normAt L a L 0 := by
  have h := res_normAt L a le_rfl
  rw [Nat.sub_self, pow_zero] at h
  rw [← h, res, natDegree_modulus, poly, Finset.sum_range_one]
  simp

theorem norm_one (a : ℕ → R) : norm 1 a 0 = a 0 ^ 2 + a 1 ^ 2 := by
  simp [norm, conv, timesX]
  ring

theorem res_nonneg {L : ℕ} (hL : 0 < L) (a : ℕ → ℤ) : 0 ≤ res (2 ^ L) a := by
  obtain ⟨M, rfl⟩ : ∃ M, L = M + 1 := ⟨L - 1, by omega⟩
  rw [res_eq_normAt, normAt, Nat.sub_self, pow_zero, norm_one]
  positivity

/-- Modulo two the resultant is the value at one. -/
theorem res_emod_two (L : ℕ) (a : ℕ → ℤ) : res (2 ^ L) a % 2 = (∑ u ∈ Finset.range (2 ^ L), a u) % 2 := by
  obtain ⟨φ, hφ⟩ : ∃ φ : ℤ →+* ZMod 2, φ = Int.castRingHom _ := ⟨_, rfl⟩
  have hmod : (X ^ 2 ^ L + 1 : (ZMod 2)[X]) = (X - C 1) ^ 2 ^ L := by
    rw [sub_pow_char_pow, C_1, one_pow, CharTwo.sub_eq_add]
  have hpow : ∀ x : ZMod 2, x ^ 2 ^ L = x := fun x => FiniteField.pow_card_pow (K := ZMod 2) L x
  have hval : φ (res (2 ^ L) a) = φ (∑ u ∈ Finset.range (2 ^ L), a u) := by
    rw [map_res, hmod, resultant_X_sub_C_pow_right _ _ _ _ (natDegree_poly_map_le φ _ a), hpow, eval_poly, map_sum,
      CharTwo.neg_eq, one_pow, one_mul]
    simp
  rw [hφ] at hval
  exact (ZMod.intCast_eq_intCast_iff _ _ 2).1 hval

end Resultant

end Negacyclic
