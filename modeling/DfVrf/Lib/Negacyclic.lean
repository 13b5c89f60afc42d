import Mathlib.Algebra.Polynomial.Div
import Mathlib.Algebra.Polynomial.Eval.Degree
import Mathlib.Algebra.Polynomial.BigOperators
import Mathlib.Algebra.BigOperators.Fin
import Mathlib.Tactic.Abel
import Mathlib.Tactic.Ring
import Mathlib.Tactic.LinearCombination

/-!
# The negacyclic number-theoretic transform

A transform of length `2 ^ L` over a commutative ring, driven by one table of twiddle factors `P`.  Layer `k`
works on `2 ^ k` blocks; in block `i` it sends the two halves `u`, `v` to `u + P[2 ^ k + i] v` and
`u - P[2 ^ k + i] v`.  The table has to halve the exponents: `P[1] ^ 2 = -1`, `P[2 * i] ^ 2 = P[i]` and
`P[2 * i + 1] ^ 2 = -P[i]` (`IsTable`).

* `fwd_eq_sum`: after all layers the entry `e` is the value of the input polynomial at a root of `X ^ (2 ^ L) + 1`.
* `fwd_mulMod`: hence the transform turns the product modulo `X ^ (2 ^ L) + 1` into the pointwise product.
* `inv_fwd`: the inverse layers, with the inverse table, undo the transform up to the factor `2 ^ L`.
-/

open Polynomial

namespace Negacyclic

variable {R : Type*} [CommRing R]

/-! ### Layers -/

/-- One forward layer on blocks of two halves of length `h`; block `i` uses the twiddle factor `P (m + i)`. -/
def fwdLayer (P : ℕ → R) (m h : ℕ) (a : ℕ → R) (e : ℕ) : R :=
  if e % (2 * h) < h then a e + P (m + e / (2 * h)) * a (e + h)
  else a (e - h) - P (m + e / (2 * h)) * a e

/-- One inverse layer on blocks of two halves of length `h`. -/
def invLayer (P' : ℕ → R) (m h : ℕ) (a : ℕ → R) (e : ℕ) : R :=
  if e % (2 * h) < h then a e + a (e + h)
  else (a (e - h) - a e) * P' (m + e / (2 * h))

/-- The first `k` forward layers of a transform of length `2 ^ L`. -/
def fwd (P : ℕ → R) (L : ℕ) : ℕ → (ℕ → R) → ℕ → R
  | 0, a => a
  | k + 1, a => fwdLayer P (2 ^ k) (2 ^ (L - (k + 1))) (fwd P L k a)

/-- The last `k` inverse layers, from layer `k - 1` down to layer `0`. -/
def inv (P' : ℕ → R) (L : ℕ) : ℕ → (ℕ → R) → ℕ → R
  | 0, a => a
  | k + 1, a => inv P' L k (invLayer P' (2 ^ k) (2 ^ (L - (k + 1))) a)

/-- The conditions on a table of twiddle factors of a transform of length `2 ^ L`. -/
structure IsTable (P : ℕ → R) (L : ℕ) : Prop where
  one : P 1 ^ 2 = -1
  even : ∀ i, 1 ≤ i → i < 2 ^ (L - 1) → P (2 * i) ^ 2 = P i
  odd : ∀ i, 1 ≤ i → i < 2 ^ (L - 1) → P (2 * i + 1) ^ 2 = -P i

/-- The root attached to block `i` after `k` layers: the block holds the residue modulo `X ^ t - root`. -/
def root (P : ℕ → R) : ℕ → ℕ → R
  | 0, _ => -1
  | k + 1, i => if i % 2 = 0 then P (2 ^ k + i / 2) else -P (2 ^ k + i / 2)

theorem IsTable.sq {P : ℕ → R} {L : ℕ} (hP : IsTable P L) {k i : ℕ} (hk : k < L) (hi : i < 2 ^ k) :
    P (2 ^ k + i) ^ 2 = root P k i := by
  cases k with
  | zero =>
    obtain rfl : i = 0 := by simpa using hi
    simpa [root] using hP.one
  | succ k =>
    have hlt : 2 ^ k + i / 2 < 2 ^ (L - 1) := by
      have := Nat.pow_le_pow_right (show 0 < 2 by omega) (show k + 1 ≤ L - 1 by omega)
      rw [pow_succ] at this hi
      omega
    have h1 : 1 ≤ 2 ^ k := Nat.one_le_two_pow
    rw [root]
    by_cases h : i % 2 = 0
    · rw [if_pos h, ← hP.even _ (by omega) hlt]
      congr 2
      rw [pow_succ]; omega
    · rw [if_neg h, ← hP.odd _ (by omega) hlt]
      congr 2
      rw [pow_succ]; omega

/-- Every root of level `k` is a root of `X ^ (2 ^ k) + 1`. -/
theorem IsTable.root_pow {P : ℕ → R} {L : ℕ} (hP : IsTable P L) {k : ℕ} (hk : k ≤ L) {i : ℕ}
    (hi : i < 2 ^ k) : root P k i ^ 2 ^ k = -1 := by
  induction k generalizing i with
  | zero => simp [root]
  | succ k ih =>
    have hi2 : i / 2 < 2 ^ k := by rw [pow_succ] at hi; omega
    have hsq : root P (k + 1) i ^ 2 = root P k (i / 2) := by
      rw [root, ← hP.sq (by omega) hi2]
      split
      · rfl
      · rw [neg_sq]
    rw [pow_succ 2 k, mul_comm, pow_mul, hsq, ih (by omega) hi2]

/-! ### Blocks -/

private theorem mul_add_div_mod {t i j : ℕ} (hj : j < t) : (t * i + j) / t = i ∧ (t * i + j) % t = j := by
  constructor
  · rw [Nat.mul_add_div (by omega), Nat.div_eq_of_lt hj, add_zero]
  · rw [Nat.mul_add_mod, Nat.mod_eq_of_lt hj]

/-- An entry of a lower half and its partner are in one block. -/
private theorem block_add {h e : ℕ} (hr : e % (2 * h) < h) :
    (e + h) / (2 * h) = e / (2 * h) ∧ (e + h) % (2 * h) = e % (2 * h) + h := by
  have hdm := Nat.div_add_mod e (2 * h)
  have e1 : e + h = 2 * h * (e / (2 * h)) + (e % (2 * h) + h) := by omega
  rw [e1]
  exact mul_add_div_mod (by omega)

/-- An entry of an upper half and its partner are in one block. -/
private theorem block_sub {h e : ℕ} (hh : 0 < h) (hr : ¬ e % (2 * h) < h) :
    (e - h) / (2 * h) = e / (2 * h) ∧ (e - h) % (2 * h) = e % (2 * h) - h ∧ h ≤ e := by
  have hdm := Nat.div_add_mod e (2 * h)
  have hlt := Nat.mod_lt e (show 0 < 2 * h by omega)
  have e1 : e - h = 2 * h * (e / (2 * h)) + (e % (2 * h) - h) := by omega
  obtain ⟨hd, hm⟩ := mul_add_div_mod (t := 2 * h) (i := e / (2 * h)) (j := e % (2 * h) - h) (by omega)
  rw [← e1] at hd hm
  exact ⟨hd, hm, by omega⟩

/-- The partner of an entry of a lower half is in range. -/
theorem add_lt_of_mod {h m e : ℕ} (he : e < 2 * h * m) (hr : e % (2 * h) < h) : e + h < 2 * h * m := by
  have hd : e / (2 * h) < m := Nat.div_lt_of_lt_mul he
  have hdm := Nat.div_add_mod e (2 * h)
  have hle := Nat.mul_le_mul_left (2 * h) hd
  rw [Nat.mul_succ] at hle
  omega

/-- The length of a transform, written for layer `k`. -/
theorem two_pow_layer {L k : ℕ} (hk : k < L) : 2 * 2 ^ (L - (k + 1)) * 2 ^ k = 2 ^ L := by
  rw [← pow_succ', ← pow_add]
  congr 1
  omega

/-! ### The forward transform evaluates -/

/-- A sum over `2 * n` terms, even and odd ones apart. -/
theorem sum_range_two_mul {M : Type*} [AddCommMonoid M] (f : ℕ → M) (n : ℕ) :
    ∑ u ∈ Finset.range (2 * n), f u =
      ∑ u ∈ Finset.range n, f (2 * u) + ∑ u ∈ Finset.range n, f (2 * u + 1) := by
  induction n with
  | zero => simp
  | succ n ih =>
    rw [show 2 * (n + 1) = 2 * n + 1 + 1 by ring, Finset.sum_range_succ, Finset.sum_range_succ, ih,
      Finset.sum_range_succ, Finset.sum_range_succ]
    abel

/-- After `k` layers the entry `j` of block `i` (blocks of length `t`) is the coefficient `j` of the residue of
the input modulo `X ^ t - root`. -/
private theorem fwd_eq_sum_of_le {P : ℕ → R} {L : ℕ} (hP : IsTable P L) (a : ℕ → R) {k : ℕ} (hk : k ≤ L) {i j : ℕ}
    (hi : i < 2 ^ k) (hj : j < 2 ^ (L - k)) : fwd P L k a (2 ^ (L - k) * i + j) =
      ∑ u ∈ Finset.range (2 ^ k), a (j + 2 ^ (L - k) * u) * root P k i ^ u := by
  induction k generalizing i j with
  | zero =>
    obtain rfl : i = 0 := by simpa using hi
    simp [fwd]
  | succ k ih =>
    obtain ⟨h, hh⟩ : ∃ h, 2 ^ (L - (k + 1)) = h := ⟨_, rfl⟩
    have ht : 2 ^ (L - k) = 2 * h := by
      rw [← hh, ← pow_succ', show L - k = L - (k + 1) + 1 by omega]
    have hhpos : 0 < h := by rw [← hh]; positivity
    rw [hh] at hj ⊢
    have hi2 : i / 2 < 2 ^ k := by rw [pow_succ] at hi; omega
    have hlo := ih (by omega) hi2 (j := j) (by omega)
    have hhi := ih (by omega) hi2 (j := j + h) (by omega)
    have hsq := hP.sq (by omega) hi2
    rw [ht] at hlo hhi
    -- the residue splits into the terms of even and of odd index
    rw [show 2 ^ (k + 1) = 2 * 2 ^ k by rw [pow_succ]; ring, sum_range_two_mul]
    have heven : ∑ u ∈ Finset.range (2 ^ k), a (j + h * (2 * u)) * root P (k + 1) i ^ (2 * u) =
        fwd P L k a (2 * h * (i / 2) + j) := by
      rw [hlo]
      refine Finset.sum_congr rfl (fun u _ => ?_)
      rw [show h * (2 * u) = 2 * h * u by ring, pow_mul, ← hsq, root]
      split <;> simp
    have hodd : ∑ u ∈ Finset.range (2 ^ k), a (j + h * (2 * u + 1)) * root P (k + 1) i ^ (2 * u + 1) =
        root P (k + 1) i * fwd P L k a (2 * h * (i / 2) + (j + h)) := by
      rw [hhi, Finset.mul_sum]
      refine Finset.sum_congr rfl (fun u _ => ?_)
      rw [show j + h * (2 * u + 1) = j + h + 2 * h * u by ring, pow_succ, pow_mul, ← hsq, root]
      split <;> ring
    rw [heven, hodd, fwd, hh, fwdLayer]
    rcases Nat.mod_two_eq_zero_or_one i with h0 | h1
    · have he : h * i + j = 2 * h * (i / 2) + j := by
        conv => lhs; rw [← Nat.div_add_mod i 2, h0]
        ring
      obtain ⟨hd, hm⟩ := mul_add_div_mod (t := 2 * h) (i := i / 2) (j := j) (by omega)
      rw [he, hd, hm, if_pos hj, root, if_pos h0, add_assoc]
    · have he : h * i + j = 2 * h * (i / 2) + (j + h) := by
        conv => lhs; rw [← Nat.div_add_mod i 2, h1]
        ring
      obtain ⟨hd, hm⟩ := mul_add_div_mod (t := 2 * h) (i := i / 2) (j := j + h) (by omega)
      rw [he, hd, hm, if_neg (by omega), root, if_neg (by omega), ← add_assoc, Nat.add_sub_cancel]
      ring

/-- The entry `e` of the transform is the value of the input at the root of `e`. -/
theorem fwd_eq_sum {P : ℕ → R} {L : ℕ} (hP : IsTable P L) (a : ℕ → R) {e : ℕ} (he : e < 2 ^ L) :
    fwd P L L a e = ∑ u ∈ Finset.range (2 ^ L), a u * root P L e ^ u := by
  have h := fwd_eq_sum_of_le hP a (le_refl L) he (j := 0) (by simp)
  simpa using h

/-! ### Products modulo `X ^ n + 1` -/

/-- The polynomial with coefficients `a 0, …, a (n - 1)`. -/
noncomputable def poly (n : ℕ) (a : ℕ → R) : R[X] := ∑ u ∈ Finset.range n, C (a u) * X ^ u

/-- The coefficients of the product of two polynomials modulo `X ^ n + 1`. -/
noncomputable def mulMod (n : ℕ) (a b : ℕ → R) (k : ℕ) : R := ((poly n a * poly n b) %ₘ (X ^ n + 1)).coeff k

theorem eval_poly (n : ℕ) (a : ℕ → R) (r : R) :
    (poly n a).eval r = ∑ u ∈ Finset.range n, a u * r ^ u := by
  simp [poly, eval_finsetSum]

private theorem poly_congr {n : ℕ} {a b : ℕ → R} (h : ∀ e < n, a e = b e) : poly n a = poly n b :=
  Finset.sum_congr rfl (fun u hu => by rw [h u (Finset.mem_range.1 hu)])

theorem mulMod_congr {n : ℕ} {a a' b b' : ℕ → R} (ha : ∀ e < n, a e = a' e) (hb : ∀ e < n, b e = b' e) :
    mulMod n a b = mulMod n a' b' := by
  funext k
  rw [mulMod, mulMod, poly_congr ha, poly_congr hb]

theorem mulMod_comm (n : ℕ) (a b : ℕ → R) : mulMod n a b = mulMod n b a := by
  funext k
  rw [mulMod, mulMod, mul_comm]

theorem mulMod_zero_left (n : ℕ) (b : ℕ → R) (k : ℕ) : mulMod n (fun _ => 0) b k = 0 := by
  simp [mulMod, poly]

theorem monic_modulus [Nontrivial R] {n : ℕ} (hn : 0 < n) : (X ^ n + 1 : R[X]).Monic := by
  simpa using monic_X_pow_add_C (1 : R) hn.ne'

private theorem poly_mulMod [Nontrivial R] {n : ℕ} (hn : 0 < n) (a b : ℕ → R) :
    poly n (mulMod n a b) = (poly n a * poly n b) %ₘ (X ^ n + 1) := by
  have hdeg : ((poly n a * poly n b) %ₘ (X ^ n + 1)).natDegree < n := by
    have h := natDegree_modByMonic_lt (poly n a * poly n b) (monic_modulus (R := R) hn) (by
      intro h
      have := congrArg natDegree h
      rw [show (X ^ n + 1 : R[X]) = X ^ n + C 1 by simp, natDegree_X_pow_add_C, natDegree_one] at this
      omega)
    rwa [show (X ^ n + 1 : R[X]) = X ^ n + C 1 by simp, natDegree_X_pow_add_C] at h
  conv => rhs; rw [as_sum_range_C_mul_X_pow' _ hdeg]
  rfl

private theorem eval_mulMod [Nontrivial R] {n : ℕ} (hn : 0 < n) (a b : ℕ → R) {r : R} (hr : r ^ n = -1) :
    (poly n (mulMod n a b)).eval r = (poly n a).eval r * (poly n b).eval r := by
  have hroot : (X ^ n + 1 : R[X]).eval r = 0 := by simp [hr]
  have h := congrArg (eval r) (modByMonic_add_div (poly n a * poly n b) (X ^ n + 1 : R[X]))
  rw [eval_add, eval_mul, hroot, zero_mul, add_zero, eval_mul] at h
  rw [poly_mulMod hn, h]

/-- The transform of a product modulo `X ^ (2 ^ L) + 1` is the pointwise product of the transforms. -/
theorem fwd_mulMod [Nontrivial R] {P : ℕ → R} {L : ℕ} (hP : IsTable P L) (a b : ℕ → R) {e : ℕ}
    (he : e < 2 ^ L) : fwd P L L (mulMod (2 ^ L) a b) e = fwd P L L a e * fwd P L L b e := by
  rw [fwd_eq_sum hP _ he, fwd_eq_sum hP _ he, fwd_eq_sum hP _ he, ← eval_poly, ← eval_poly, ← eval_poly]
  exact eval_mulMod (by positivity) a b (hP.root_pow (le_refl L) he)

/-! ### The inverse transform -/

private theorem fwdLayer_congr {P : ℕ → R} {m h : ℕ} {a b : ℕ → R} (hab : ∀ e < 2 * h * m, a e = b e) {e : ℕ}
    (he : e < 2 * h * m) : fwdLayer P m h a e = fwdLayer P m h b e := by
  unfold fwdLayer
  split
  · rename_i hr
    rw [hab e he, hab _ (add_lt_of_mod he hr)]
  · rw [hab e he, hab _ (by omega)]

private theorem invLayer_congr {P' : ℕ → R} {m m' h : ℕ} {a b : ℕ → R} (hab : ∀ e < 2 * h * m, a e = b e) {e : ℕ}
    (he : e < 2 * h * m) : invLayer P' m' h a e = invLayer P' m' h b e := by
  unfold invLayer
  split
  · rename_i hr
    rw [hab e he, hab _ (add_lt_of_mod he hr)]
  · rw [hab e he, hab _ (by omega)]

theorem fwd_congr {P : ℕ → R} {L k : ℕ} (hk : k ≤ L) {a b : ℕ → R} (hab : ∀ e < 2 ^ L, a e = b e) {e : ℕ}
    (he : e < 2 ^ L) : fwd P L k a e = fwd P L k b e := by
  induction k generalizing e with
  | zero => exact hab e he
  | succ k ih =>
    have hl := two_pow_layer (show k < L by omega)
    refine fwdLayer_congr (fun e he => ih (by omega) (by rwa [hl] at he)) (by rwa [hl])

theorem inv_congr {P' : ℕ → R} {L k : ℕ} (hk : k ≤ L) {a b : ℕ → R} (hab : ∀ e < 2 ^ L, a e = b e) {e : ℕ}
    (he : e < 2 ^ L) : inv P' L k a e = inv P' L k b e := by
  induction k generalizing a b e with
  | zero => exact hab e he
  | succ k ih =>
    have hl := two_pow_layer (show k < L by omega)
    refine ih (by omega) (fun e he => ?_) he
    exact invLayer_congr (fun e he => hab e (by rwa [hl] at he)) (by rwa [hl])

/-- An inverse layer undoes the forward layer up to the factor two. -/
private theorem invLayer_fwdLayer {P P' : ℕ → R} {m h : ℕ} (hh : 0 < h) (a : ℕ → R) (c : R) {e : ℕ}
    (hPP : P (m + e / (2 * h)) * P' (m + e / (2 * h)) = 1) :
    invLayer P' m h (fun e => c * fwdLayer P m h a e) e = 2 * c * a e := by
  unfold invLayer fwdLayer
  by_cases hr : e % (2 * h) < h
  · obtain ⟨hd, hm⟩ := block_add hr
    simp only [hd, hm, hr, if_true, Nat.add_sub_cancel, show ¬ e % (2 * h) + h < h by omega, if_false]
    ring
  · obtain ⟨hd, hm, hle⟩ := block_sub hh hr
    have hlt := Nat.mod_lt e (show 0 < 2 * h by omega)
    simp only [hd, hm, hr, if_false, Nat.sub_add_cancel hle, show e % (2 * h) - h < h by omega, if_true]
    linear_combination (2 * c * a e) * hPP

/-- The twiddle factor of an entry in layer `k` has its inverse in the other table. -/
private theorem twiddle_index {P P' : ℕ → R} {L k : ℕ} (hPP : ∀ i, 1 ≤ i → i < 2 ^ L → P i * P' i = 1) (hk : k < L)
    {e : ℕ}
    (he : e < 2 ^ L) : P (2 ^ k + e / (2 * 2 ^ (L - (k + 1)))) * P' (2 ^ k + e / (2 * 2 ^ (L - (k + 1)))) = 1 := by
  apply hPP
  · exact le_trans Nat.one_le_two_pow (Nat.le_add_right _ _)
  · have hd : e / (2 * 2 ^ (L - (k + 1))) < 2 ^ k := Nat.div_lt_of_lt_mul (by rwa [two_pow_layer hk])
    have hp := Nat.pow_le_pow_right (show 0 < 2 by omega) (show k + 1 ≤ L by omega)
    rw [pow_succ] at hp
    generalize e / (2 * 2 ^ (L - (k + 1))) = d at hd ⊢
    omega

/-- The inverse layers undo the forward ones up to the factor `2 ^ k`. -/
private theorem inv_fwd_of_le {P P' : ℕ → R} {L k : ℕ} (hk : k ≤ L)
    (hPP : ∀ i, 1 ≤ i → i < 2 ^ L → P i * P' i = 1) (a : ℕ → R) (c : R) {e : ℕ} (he : e < 2 ^ L) :
    inv P' L k (fun e => c * fwd P L k a e) e = 2 ^ k * c * a e := by
  induction k generalizing c e with
  | zero => simp [inv, fwd]
  | succ k ih =>
    have hl := two_pow_layer (show k < L by omega)
    rw [inv, inv_congr (b := fun e => 2 * c * fwd P L k a e) (by omega) _ he, ih (by omega) _ he]
    · ring
    · intro e he
      exact invLayer_fwdLayer (by positivity) _ c (twiddle_index hPP (by omega) he)

theorem inv_fwd {P P' : ℕ → R} {L : ℕ} (hPP : ∀ i, 1 ≤ i → i < 2 ^ L → P i * P' i = 1) (a : ℕ → R) {e : ℕ}
    (he : e < 2 ^ L) : inv P' L L (fwd P L L a) e = 2 ^ L * a e := by
  have h := inv_fwd_of_le (le_refl L) hPP a 1 he
  simpa using h

/-- Multiplying pointwise between the two transforms multiplies the polynomials modulo `X ^ (2 ^ L) + 1`. -/
theorem inv_mul_fwd [Nontrivial R] {P P' : ℕ → R} {L : ℕ} (hP : IsTable P L)
    (hPP : ∀ i, 1 ≤ i → i < 2 ^ L → P i * P' i = 1) (a b : ℕ → R) {e : ℕ} (he : e < 2 ^ L) :
    inv P' L L (fun e => fwd P L L a e * fwd P L L b e) e = 2 ^ L * mulMod (2 ^ L) a b e := by
  rw [← inv_fwd hPP (mulMod (2 ^ L) a b) he]
  exact inv_congr (le_refl L) (fun e he => (fwd_mulMod hP a b he).symm) he

/-- A forward layer undoes the inverse layer up to the factor two. -/
private theorem fwdLayer_invLayer {P P' : ℕ → R} {m h : ℕ} (hh : 0 < h) (a : ℕ → R) (c : R) {e : ℕ}
    (hPP : P (m + e / (2 * h)) * P' (m + e / (2 * h)) = 1) :
    fwdLayer P m h (fun e => c * invLayer P' m h a e) e = 2 * c * a e := by
  unfold invLayer fwdLayer
  by_cases hr : e % (2 * h) < h
  · obtain ⟨hd, hm⟩ := block_add hr
    simp only [hd, hm, hr, if_true, Nat.add_sub_cancel, show ¬ e % (2 * h) + h < h by omega, if_false]
    linear_combination (c * (a e - a (e + h))) * hPP
  · obtain ⟨hd, hm, hle⟩ := block_sub hh hr
    have hlt := Nat.mod_lt e (show 0 < 2 * h by omega)
    simp only [hd, hm, hr, if_false, Nat.sub_add_cancel hle, show e % (2 * h) - h < h by omega, if_true]
    linear_combination (-c * (a (e - h) - a e)) * hPP

private theorem fwd_inv_of_le {P P' : ℕ → R} {L k : ℕ} (hk : k ≤ L) (hPP : ∀ i, 1 ≤ i → i < 2 ^ L → P i * P' i = 1)
    (a : ℕ → R) {e : ℕ} (he : e < 2 ^ L) : fwd P L k (inv P' L k a) e = 2 ^ k * a e := by
  induction k generalizing a e with
  | zero => simp [inv, fwd]
  | succ k ih =>
    have hl := two_pow_layer (show k < L by omega)
    have hstep : ∀ e < 2 * 2 ^ (L - (k + 1)) * 2 ^ k, fwd P L k (inv P' L (k + 1) a) e =
        2 ^ k * invLayer P' (2 ^ k) (2 ^ (L - (k + 1))) a e := by
      intro e he
      exact ih (by omega) _ (by rwa [hl] at he)
    rw [fwd, fwdLayer_congr hstep (by rwa [hl]),
      fwdLayer_invLayer (by positivity) a (2 ^ k) (twiddle_index hPP (by omega) he)]
    ring

/-- The forward transform undoes the inverse one up to the factor `2 ^ L`. -/
private theorem fwd_inv {P P' : ℕ → R} {L : ℕ} (hPP : ∀ i, 1 ≤ i → i < 2 ^ L → P i * P' i = 1) (a : ℕ → R) {e : ℕ}
    (he : e < 2 ^ L) : fwd P L L (inv P' L L a) e = 2 ^ L * a e := fwd_inv_of_le (le_refl L) hPP a he

/-! ### Inverses modulo `X ^ n + 1` -/

/-- `a * b = 1` modulo `X ^ n + 1`. -/
def IsInverse (n : ℕ) (a b : ℕ → R) : Prop := (poly n a * poly n b) %ₘ (X ^ n + 1) = 1

private theorem poly_one {n : ℕ} (hn : 0 < n) : poly n (fun e => if e = 0 then (1 : R) else 0) = 1 := by
  rw [poly, Finset.sum_eq_single_of_mem 0 (Finset.mem_range.2 hn)]
  · simp
  · intro u _ hu
    simp [hu]

theorem fwd_one {P : ℕ → R} {L : ℕ} (hP : IsTable P L) {e : ℕ} (he : e < 2 ^ L) :
    fwd P L L (fun e => if e = 0 then (1 : R) else 0) e = 1 := by
  rw [fwd_eq_sum hP _ he, ← eval_poly, poly_one (Nat.two_pow_pos L), eval_one]

theorem fwd_zero {P : ℕ → R} {L : ℕ} (hP : IsTable P L) {e : ℕ} (he : e < 2 ^ L) :
    fwd P L L (fun _ => (0 : R)) e = 0 := by
  rw [fwd_eq_sum hP _ he]
  exact Finset.sum_eq_zero fun u _ => zero_mul _

/-- Polynomials with the same transform are equal, if two is cancellable. -/
theorem eq_of_fwd_eq {P P' : ℕ → R} {L : ℕ} {u : R} (hu : 2 ^ L * u = 1)
    (hPP : ∀ i, 1 ≤ i → i < 2 ^ L → P i * P' i = 1) {a b : ℕ → R}
    (h : ∀ e < 2 ^ L, fwd P L L a e = fwd P L L b e) {e : ℕ} (he : e < 2 ^ L) : a e = b e := by
  have hab : 2 ^ L * a e = 2 ^ L * b e := by
    rw [← inv_fwd hPP a he, ← inv_fwd hPP b he]
    exact inv_congr (le_refl L) h he
  linear_combination u * hab - (a e - b e) * hu

/-- Every array is the transform of a polynomial. -/
theorem exists_fwd_eq {P P' : ℕ → R} {L : ℕ} {u : R} (hu : 2 ^ L * u = 1)
    (hPP : ∀ i, 1 ≤ i → i < 2 ^ L → P i * P' i = 1) (g : ℕ → R) : ∃ a, ∀ e < 2 ^ L, fwd P L L a e = g e := by
  refine ⟨inv P' L L (fun e => u * g e), fun e he => ?_⟩
  rw [fwd_inv hPP _ he, ← mul_assoc, hu, one_mul]

/-- Two polynomials are inverse to each other exactly if their transforms are so at every entry. -/
theorem isInverse_iff [Nontrivial R] {P P' : ℕ → R} {L : ℕ} {u : R} (hu : 2 ^ L * u = 1) (hP : IsTable P L)
    (hPP : ∀ i, 1 ≤ i → i < 2 ^ L → P i * P' i = 1) (a b : ℕ → R) :
    IsInverse (2 ^ L) a b ↔ ∀ e < 2 ^ L, fwd P L L a e * fwd P L L b e = 1 := by
  have hn := Nat.two_pow_pos L
  rw [IsInverse, ← poly_mulMod hn]
  constructor
  · intro h e he
    rw [← fwd_mulMod hP a b he, fwd_eq_sum hP _ he, ← eval_poly, h, eval_one]
  · intro h
    rw [← poly_one hn]
    apply poly_congr
    intro e he
    apply eq_of_fwd_eq hu hPP _ he
    intro e he
    rw [fwd_mulMod hP a b he, h e he, fwd_one hP he]

end Negacyclic
