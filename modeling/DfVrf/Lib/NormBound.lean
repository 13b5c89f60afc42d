import DfVrf.Lib.FieldNorm
import Mathlib.Algebra.Order.Chebyshev
import Mathlib.Analysis.InnerProductSpace.Basic
import Mathlib.Analysis.Complex.Polynomial.Basic

/-!
# The size of the norms

The coefficients of the norm of an integer polynomial are bounded in terms of the squares of its coefficients.  At a
complex root of the modulus the value of a norm is a product of values of the polynomial, and the mean of the squares of
these is the energy of the parts into which the polynomial splits.

* `normAt_sq_le`: a coefficient of the norm after `d` steps.
-/

namespace Negacyclic

open Finset

/-! ### Values on the unit circle -/

section Circle

variable {a : ℕ → ℂ} {r : ℂ}

/-- The value of a polynomial of degree below `n`. -/
noncomputable def valueAt (n : ℕ) (a : ℕ → ℂ) (r : ℂ) : ℂ := ∑ u ∈ range n, a u * r ^ u

private theorem norm_valueAt_sq_le (n : ℕ) (a : ℕ → ℂ) (hr : ‖r‖ = 1) :
    ‖valueAt n a r‖ ^ 2 ≤ n * ∑ u ∈ range n, ‖a u‖ ^ 2 := by
  have hsum : ‖valueAt n a r‖ ≤ ∑ u ∈ range n, ‖a u‖ := by
    refine (norm_sum_le _ _).trans (le_of_eq (sum_congr rfl fun u _ => ?_))
    rw [norm_mul, norm_pow, hr, one_pow, mul_one]
  calc ‖valueAt n a r‖ ^ 2 ≤ (∑ u ∈ range n, ‖a u‖) ^ 2 := by gcongr
    _ ≤ n * ∑ u ∈ range n, ‖a u‖ ^ 2 := by
      have h := sq_sum_le_card_mul_sum_sq (s := range n) (f := fun u => ‖a u‖)
      rwa [card_range] at h

/-- The even and the odd part. -/
private theorem valueAt_two_mul (n : ℕ) (a : ℕ → ℂ) (r : ℂ) :
    valueAt (2 * n) a r = valueAt n (fun i => a (2 * i)) (r ^ 2) + r * valueAt n (fun i => a (2 * i + 1)) (r ^ 2) := by
  unfold valueAt
  rw [sum_range_two_mul, mul_sum]
  congr 1
  · refine sum_congr rfl fun i _ => ?_
    rw [pow_mul]
  · refine sum_congr rfl fun i _ => ?_
    rw [pow_succ, pow_mul]
    ring

/-- The squares at `r` and `-r` and those of the two parts. -/
private theorem norm_sq_add_norm_sq (n : ℕ) (a : ℕ → ℂ) (hr : ‖r‖ = 1) :
    ‖valueAt (2 * n) a r‖ ^ 2 + ‖valueAt (2 * n) a (-r)‖ ^ 2 =
      2 * (‖valueAt n (fun i => a (2 * i)) (r ^ 2)‖ ^ 2 + ‖valueAt n (fun i => a (2 * i + 1)) (r ^ 2)‖ ^ 2) := by
  rw [valueAt_two_mul n a r, valueAt_two_mul n a (-r), neg_sq, neg_mul, ← sub_eq_add_neg, parallelogram_law_with_norm ℝ,
    norm_mul, hr, one_mul]

/-- The sum of the squares of the values of the `2 ^ d` parts. -/
noncomputable def energy (L d : ℕ) (a : ℕ → ℂ) (r : ℂ) : ℝ :=
  ∑ j ∈ range (2 ^ d), ‖valueAt (2 ^ (L - d)) (fun u => a (j + 2 ^ d * u)) r‖ ^ 2

private theorem energy_succ {L d : ℕ} (hd : d < L) (a : ℕ → ℂ) (hr : ‖r‖ = 1) :
    energy L d a r + energy L d a (-r) = 2 * energy L (d + 1) a (r ^ 2) := by
  have hlen : 2 ^ (L - d) = 2 * 2 ^ (L - (d + 1)) := by
    rw [← pow_succ', show L - (d + 1) + 1 = L - d by omega]
  unfold energy
  rw [← sum_add_distrib, hlen, pow_succ 2 d, mul_two, sum_range_add, ← sum_add_distrib, mul_sum]
  refine sum_congr rfl fun j _ => ?_
  rw [norm_sq_add_norm_sq _ _ hr]
  have heven : (fun i => a (j + 2 ^ d * (2 * i))) = fun u => a (j + (2 ^ d + 2 ^ d) * u) := by
    funext u
    congr 1
    ring
  have hodd : (fun i => a (j + 2 ^ d * (2 * i + 1))) = fun u => a (2 ^ d + j + (2 ^ d + 2 ^ d) * u) := by
    funext u
    congr 1
    ring
  rw [heven, hodd]

private theorem sum_parts {M : Type*} [AddCommMonoid M] {L d : ℕ} (hd : d ≤ L) (f : ℕ → M) :
    ∑ j ∈ range (2 ^ d), ∑ u ∈ range (2 ^ (L - d)), f (j + 2 ^ d * u) = ∑ i ∈ range (2 ^ L), f i := by
  induction d with
  | zero => simp
  | succ d ih =>
    rw [← ih (by omega), show L - d = L - (d + 1) + 1 by omega, pow_succ 2 d, mul_two, sum_range_add, ← sum_add_distrib]
    refine sum_congr rfl fun j _ => ?_
    rw [pow_succ 2 (L - (d + 1)), mul_comm (2 ^ (L - (d + 1))), sum_range_two_mul, ← sum_add_distrib,
      ← sum_add_distrib]
    refine sum_congr rfl fun u _ => ?_
    rw [show j + 2 ^ d * (2 * u) = j + (2 ^ d + 2 ^ d) * u by ring,
      show j + 2 ^ d * (2 * u + 1) = 2 ^ d + j + (2 ^ d + 2 ^ d) * u by ring]

private theorem energy_le {L d : ℕ} (hd : d ≤ L) (a : ℕ → ℂ) (hr : ‖r‖ = 1) :
    energy L d a r ≤ 2 ^ (L - d) * ∑ i ∈ range (2 ^ L), ‖a i‖ ^ 2 := by
  rw [← sum_parts hd fun i => ‖a i‖ ^ 2, mul_sum]
  refine sum_le_sum fun j _ => ?_
  exact_mod_cast norm_valueAt_sq_le (2 ^ (L - d)) (fun u => a (j + 2 ^ d * u)) hr

private theorem norm_eq_one_of_pow {n : ℕ} (hn : 0 < n) (h : r ^ n = -1) : ‖r‖ = 1 := by
  have hpow : ‖r‖ ^ n = 1 := by rw [← norm_pow, h, norm_neg, NormOneClass.norm_one]
  exact (pow_eq_one_iff_of_nonneg (norm_nonneg r) (by omega)).1 hpow

/-- The value of a norm, by the inequality of the means. -/
private theorem norm_valueAt_normAt_sq_le {L d : ℕ} (hd : d ≤ L) (a : ℕ → ℂ) (hr : r ^ 2 ^ (L - d) = -1) :
    ‖valueAt (2 ^ (L - d)) (normAt L a d) r‖ ^ 2 ≤ energy L d a r ^ 2 ^ d := by
  induction d generalizing r with
  | zero => simp [energy, normAt]
  | succ d ih =>
    obtain ⟨s, rfl⟩ : ∃ s, s ^ 2 = r := IsAlgClosed.exists_pow_nat_eq r (by omega)
    have hlen : 2 ^ (L - d) = 2 * 2 ^ (L - (d + 1)) := by
      rw [← pow_succ', show L - (d + 1) + 1 = L - d by omega]
    have hs : s ^ 2 ^ (L - d) = -1 := by rw [hlen, pow_mul, hr]
    have hs' : (-s) ^ 2 ^ (L - d) = -1 := by rw [hlen, pow_mul, neg_sq, hr]
    have hnorm := norm_eq_one_of_pow (by positivity) hs
    have heval : valueAt (2 ^ (L - (d + 1))) (normAt L a (d + 1)) (s ^ 2) =
        valueAt (2 ^ (L - d)) (normAt L a d) s * valueAt (2 ^ (L - d)) (normAt L a d) (-s) := by
      rw [hlen]
      exact eval_norm (by positivity) _ hr
    have hpos : ∀ t, 0 ≤ energy L d a t := fun t => sum_nonneg fun _ _ => sq_nonneg _
    have hmean : energy L d a s * energy L d a (-s) ≤ energy L (d + 1) a (s ^ 2) ^ 2 := by
      have hsum := energy_succ (show d < L by omega) a hnorm
      rw [show energy L (d + 1) a (s ^ 2) = (energy L d a s + energy L d a (-s)) / 2 by linarith]
      nlinarith [sq_nonneg (energy L d a s - energy L d a (-s))]
    calc ‖valueAt (2 ^ (L - (d + 1))) (normAt L a (d + 1)) (s ^ 2)‖ ^ 2
        = ‖valueAt (2 ^ (L - d)) (normAt L a d) s‖ ^ 2 * ‖valueAt (2 ^ (L - d)) (normAt L a d) (-s)‖ ^ 2 := by
          rw [heval, norm_mul, mul_pow]
      _ ≤ energy L d a s ^ 2 ^ d * energy L d a (-s) ^ 2 ^ d :=
          mul_le_mul (ih (by omega) hs) (ih (by omega) hs') (sq_nonneg _) (pow_nonneg (hpos s) _)
      _ = (energy L d a s * energy L d a (-s)) ^ 2 ^ d := (mul_pow _ _ _).symm
      _ ≤ (energy L (d + 1) a (s ^ 2) ^ 2) ^ 2 ^ d := pow_le_pow_left₀ (mul_nonneg (hpos s) (hpos (-s))) hmean _
      _ = energy L (d + 1) a (s ^ 2) ^ 2 ^ (d + 1) := by rw [← pow_mul, pow_succ' 2 d]

end Circle

/-! ### Coefficients from values -/

section Coefficients

/-- An inverse layer at most doubles the entries. -/
private theorem norm_inv_le (P' : ℕ → ℂ) (hP : ∀ i, ‖P' i‖ ≤ 1) {L k : ℕ} (hk : k ≤ L) {f : ℕ → ℂ} {C : ℝ}
    (hf : ∀ e < 2 ^ L, ‖f e‖ ≤ C) {e : ℕ} (he : e < 2 ^ L) : ‖inv P' L k f e‖ ≤ 2 ^ k * C := by
  induction k generalizing f C e with
  | zero => simpa [inv] using hf e he
  | succ k ih =>
    have hlayer : ∀ e < 2 ^ L, ‖invLayer P' (2 ^ k) (2 ^ (L - (k + 1))) f e‖ ≤ 2 * C := by
      intro e he
      have hlen := two_pow_layer (show k < L by omega)
      unfold invLayer
      split
      · rename_i hlow
        have hnext := add_lt_of_mod (m := 2 ^ k) (by rwa [hlen]) hlow
        rw [hlen] at hnext
        linarith [norm_add_le (f e) (f (e + 2 ^ (L - (k + 1)))), hf e he, hf _ hnext]
      · rw [norm_mul]
        have hsub := norm_sub_le (f (e - 2 ^ (L - (k + 1)))) (f e)
        have h1 := hf e he
        have h2 := hf (e - 2 ^ (L - (k + 1))) (lt_of_le_of_lt (Nat.sub_le _ _) he)
        nlinarith [hP (2 ^ k + e / (2 * 2 ^ (L - (k + 1)))), norm_nonneg (f (e - 2 ^ (L - (k + 1))) - f e),
          norm_nonneg (P' (2 ^ k + e / (2 * 2 ^ (L - (k + 1)))))]
    rw [inv]
    calc _ ≤ 2 ^ k * (2 * C) := ih (by omega) hlayer he
      _ = 2 ^ (k + 1) * C := by ring

private theorem norm_sqrtTable {s : ℂ → ℂ} (hs : ∀ x, s x ^ 2 = x) (i : ℕ) : ‖sqrtTable s i‖ = 1 := by
  have hsq : ∀ x, ‖x‖ = 1 → ‖s x‖ = 1 := by
    intro x hx
    have hpow : ‖s x‖ ^ 2 = 1 := by rw [← norm_pow, hs, hx]
    exact (pow_eq_one_iff_of_nonneg (norm_nonneg _) (by omega)).1 hpow
  induction i using sqrtTable.induct with
  | case1 => simp [sqrtTable]
  | case2 =>
    rw [sqrtTable]
    exact hsq (-1) (by rw [norm_neg, NormOneClass.norm_one])
  | case3 n hn ih =>
    rw [sqrtTable, if_pos hn]
    exact hsq _ ih
  | case4 n hn ih =>
    rw [sqrtTable, if_neg hn]
    exact hsq _ (by rwa [norm_neg])

/-- A bound on the values at all roots bounds the coefficients. -/
private theorem norm_coeff_le {L : ℕ} {a : ℕ → ℂ} {C : ℝ} (h : ∀ r, r ^ 2 ^ L = -1 → ‖valueAt (2 ^ L) a r‖ ≤ C) {k : ℕ}
    (hk : k < 2 ^ L) : ‖a k‖ ≤ C := by
  obtain ⟨s, hs⟩ : ∃ s : ℂ → ℂ, ∀ x, s x ^ 2 = x :=
    ⟨fun x => (IsAlgClosed.exists_pow_nat_eq x (show 0 < 2 by omega)).choose,
      fun x => (IsAlgClosed.exists_pow_nat_eq x (show 0 < 2 by omega)).choose_spec⟩
  have htab := isTable_sqrtTable hs L
  have hone := norm_sqrtTable hs
  have hfwd : ∀ e < 2 ^ L, ‖fwd (sqrtTable s) L L a e‖ ≤ C := by
    intro e he
    rw [fwd_eq_sum htab a he]
    exact h _ (htab.root_pow le_rfl he)
  have hinv := norm_inv_le (fun i => (sqrtTable s i)⁻¹) (fun i => by rw [norm_inv, hone, inv_one]) le_rfl hfwd hk
  have hne : ∀ i, sqrtTable s i ≠ 0 := fun i h0 => by
    have h1 := hone i
    rw [h0, norm_zero] at h1
    exact zero_ne_one h1
  rw [inv_fwd (fun i _ _ => mul_inv_cancel₀ (hne i)) a hk, norm_mul, norm_pow, Complex.norm_two] at hinv
  exact le_of_mul_le_mul_left hinv (by positivity)

end Coefficients

/-! ### Integers -/

private theorem map_normAt {R S : Type*} [CommRing R] [CommRing S] (φ : R →+* S) (L : ℕ) (a : ℕ → R) (d k : ℕ) :
    φ (normAt L a d k) = normAt L (fun i => φ (a i)) d k := by
  induction d generalizing k with
  | zero => rfl
  | succ d ih =>
    rw [normAt, normAt, map_norm]
    simp only [ih]

/-- The coefficients of the norm after `d` steps. -/
theorem normAt_sq_le (L : ℕ) (a : ℕ → ℤ) {d k : ℕ} (hd : d ≤ L) (hk : k < 2 ^ (L - d)) :
    normAt L a d k ^ 2 ≤ (2 ^ (L - d) * ∑ u ∈ range (2 ^ L), a u ^ 2) ^ 2 ^ d := by
  obtain ⟨b, hb⟩ : ∃ b : ℕ → ℂ, b = fun u => (a u : ℂ) := ⟨_, rfl⟩
  obtain ⟨E, hE⟩ : ∃ E : ℝ, 2 ^ (L - d) * ∑ u ∈ range (2 ^ L), ‖b u‖ ^ 2 = E := ⟨_, rfl⟩
  have hEint : E = ((2 ^ (L - d) * ∑ u ∈ range (2 ^ L), a u ^ 2 : ℤ) : ℝ) := by
    rw [← hE, hb]
    push_cast
    simp
  have hpos : 0 ≤ E := by
    rw [← hE]
    positivity
  have hroot : ∀ r, r ^ 2 ^ (L - d) = -1 → ‖valueAt (2 ^ (L - d)) (normAt L b d) r‖ ≤ √(E ^ 2 ^ d) := by
    intro r hr
    refine Real.le_sqrt_of_sq_le ((norm_valueAt_normAt_sq_le hd b hr).trans ?_)
    have henergy := energy_le hd b (norm_eq_one_of_pow (by positivity) hr)
    rw [hE] at henergy
    exact pow_le_pow_left₀ (sum_nonneg fun _ _ => sq_nonneg _) henergy _
  have hcoeff := norm_coeff_le hroot hk
  have hcast : normAt L b d k = ((normAt L a d k : ℤ) : ℂ) := by
    rw [hb]
    exact (map_normAt (Int.castRingHom ℂ) L a d k).symm
  rw [hcast, Complex.norm_intCast] at hcoeff
  have hsq := (Real.le_sqrt (abs_nonneg _) (pow_nonneg hpos _)).1 hcoeff
  rw [sq_abs, hEint] at hsq
  exact_mod_cast hsq

end Negacyclic
