import DfVrf.Lib.InPlace
import Mathlib.Algebra.BigOperators.Intervals

/-!
# Batch inversion

Several values are inverted at once from the inverse `c` of their product: entry `i` of the result is `c` times the
product of the other values, which is the product of a prefix and a suffix.  Both are computed in place
(`prefixes`, `suffixes`), and `combine` multiplies them.  Whatever `c` is, every entry times its value is `c` times the
product of all values (`mul_inverses`), so that one test tells whether `c` is the inverse.
-/

namespace BatchInverse

open InPlace

variable {α M : Type*} [Inhabited α] [CommMonoid M]

/-- Write the products of `b[0]` and the entries `1, …, i` of `a` into `b`. -/
def prefixes (mul : α → α → α) (a : List α) (n : ℕ) (b : List α) : List α :=
  ((List.range' 1 (n - 1)).foldl (fun st i =>
    let t := mul st.1 (rd a i)
    (t, st.2.set i t)) (rd b 0, b)).2

/-- Write the products of the last entry of `b` and the entries behind `i` of `a` into `b`, from the end. -/
def suffixes (mul : α → α → α) (a : List α) (n : ℕ) (b : List α) : List α :=
  (List.range (n - 1)).foldl (fun b k =>
    let i := n - 1 - k
    b.set (i - 1) (mul (rd b i) (rd a i))) b

/-- Multiply every entry of `b` but the first one by the entry of `p` before it. -/
def combine (mul : α → α → α) (p : List α) (n : ℕ) (b : List α) : List α :=
  (List.range' 1 (n - 1)).foldl (fun b i => b.set i (mul (rd p (i - 1)) (rd b i))) b

/-! ### The loops -/

/-- Every entry of the prefix products is made of the one before it. -/
private theorem prefixes_step (mul : α → α → α) (a : List α) {n : ℕ} {b : List α} (hb : b.length = n) (hn : 0 < n) :
    rd (prefixes mul a n b) 0 = rd b 0 ∧
      ∀ i, i + 1 < n → rd (prefixes mul a n b) (i + 1) = mul (rd (prefixes mul a n b) i) (rd a (i + 1)) := by
  have hfold : ∀ k < n, ∃ t b', (List.range' 1 k).foldl (fun st i =>
      let t := mul st.1 (rd a i)
      (t, st.2.set i t)) (rd b 0, b) = (t, b') ∧ b'.length = n ∧ rd b' k = t ∧ rd b' 0 = rd b 0 ∧
        ∀ i < k, rd b' (i + 1) = mul (rd b' i) (rd a (i + 1)) := by
    intro k hk
    induction k with
    | zero => exact ⟨rd b 0, b, rfl, hb, rfl, rfl, fun i hi => absurd hi (Nat.not_lt_zero i)⟩
    | succ k ih =>
      obtain ⟨t, b', heq, hl, ht, h0, hprev⟩ := ih (by omega)
      have hset : ∀ i, rd (b'.set (1 + k) (mul t (rd a (1 + k)))) i =
          if i = k + 1 then mul t (rd a (k + 1)) else rd b' i := by
        intro i
        rw [rd_set, Nat.add_comm 1 k]
        by_cases h : i = k + 1
        · rw [if_pos ⟨h.symm, by omega⟩, if_pos h]
        · rw [if_neg fun hc => h hc.1.symm, if_neg h]
      refine ⟨mul t (rd a (1 + k)), b'.set (1 + k) (mul t (rd a (1 + k))), ?_, by rw [List.length_set, hl], ?_, ?_, ?_⟩
      · rw [List.range'_1_concat, List.foldl_append, heq]
        rfl
      · rw [hset, if_pos rfl, Nat.add_comm 1 k]
      · rw [hset, if_neg (by omega), h0]
      · intro i hi
        rw [hset, hset]
        by_cases h : i = k
        · rw [if_pos (by omega), if_neg (by omega), h, ht]
        · rw [if_neg (by omega), if_neg (by omega)]
          exact hprev i (by omega)
  obtain ⟨t, b', heq, _, _, h0, h⟩ := hfold (n - 1) (by omega)
  rw [prefixes, heq]
  exact ⟨h0, fun i hi => h i (by omega)⟩

/-- Every entry of the suffix products is made of the one behind it. -/
private theorem suffixes_step (mul : α → α → α) (a : List α) {n : ℕ} {b : List α} (hb : b.length = n) (hn : 0 < n) :
    (suffixes mul a n b).length = n ∧ rd (suffixes mul a n b) (n - 1) = rd b (n - 1) ∧
      ∀ i, i + 1 < n → rd (suffixes mul a n b) i = mul (rd (suffixes mul a n b) (i + 1)) (rd a (i + 1)) := by
  have hfold : ∀ k < n, ∃ b', (List.range k).foldl (fun b k =>
      let i := n - 1 - k
      b.set (i - 1) (mul (rd b i) (rd a i))) b = b' ∧ b'.length = n ∧ rd b' (n - 1) = rd b (n - 1) ∧
        ∀ i, n - 1 - k ≤ i → i + 1 < n → rd b' i = mul (rd b' (i + 1)) (rd a (i + 1)) := by
    intro k hk
    induction k with
    | zero => exact ⟨b, rfl, hb, rfl, fun i h1 h2 => by omega⟩
    | succ k ih =>
      obtain ⟨b', heq, hl, hlast, hprev⟩ := ih (by omega)
      have hset : ∀ i, rd (b'.set (n - 1 - k - 1) (mul (rd b' (n - 1 - k)) (rd a (n - 1 - k)))) i =
          if i + 1 = n - 1 - k then mul (rd b' (i + 1)) (rd a (i + 1)) else rd b' i := by
        intro i
        rw [rd_set]
        by_cases h : i + 1 = n - 1 - k
        · rw [if_pos ⟨by omega, by omega⟩, if_pos h, h]
        · rw [if_neg fun hc => h (by omega), if_neg h]
      refine ⟨b'.set (n - 1 - k - 1) (mul (rd b' (n - 1 - k)) (rd a (n - 1 - k))), ?_, by rw [List.length_set, hl],
        ?_, ?_⟩
      · rw [List.range_succ, List.foldl_append, heq]
        rfl
      · rw [hset, if_neg (by omega), hlast]
      · intro i hi hin
        rw [hset, hset, if_neg (show ¬ i + 1 + 1 = n - 1 - k by omega)]
        by_cases h : i + 1 = n - 1 - k
        · rw [if_pos h]
        · rw [if_neg h]
          exact hprev i (by omega) hin
  obtain ⟨b', heq, hl, hlast, h⟩ := hfold (n - 1) (by omega)
  rw [suffixes, heq]
  exact ⟨hl, hlast, fun i hi => h i (by omega) hi⟩

/-- The entries of a combination, in terms of those before. -/
private theorem rd_combine (mul : α → α → α) (p : List α) {n : ℕ} {b : List α} (hb : b.length = n) {i : ℕ}
    (hi : i < n) :
    rd (combine mul p n b) i = if i = 0 then rd b 0 else mul (rd p (i - 1)) (rd b i) := by
  have hfold : ∀ k < n, ∃ b', (List.range' 1 k).foldl (fun b i => b.set i (mul (rd p (i - 1)) (rd b i))) b = b' ∧
      b'.length = n ∧ ∀ i < n, rd b' i = if i = 0 ∨ k < i then rd b i else mul (rd p (i - 1)) (rd b i) := by
    intro k hk
    induction k with
    | zero => exact ⟨b, rfl, hb, fun i _ => by rw [if_pos (by omega)]⟩
    | succ k ih =>
      obtain ⟨b', heq, hl, hprev⟩ := ih (by omega)
      refine ⟨b'.set (1 + k) (mul (rd p (1 + k - 1)) (rd b' (1 + k))), ?_, by rw [List.length_set, hl], ?_⟩
      · rw [List.range'_1_concat, List.foldl_append, heq]
        rfl
      · intro i hi
        rw [rd_set]
        by_cases h : 1 + k = i
        · rw [if_pos ⟨h, by omega⟩, if_neg (by omega), ← h, hprev _ (by omega), if_pos (by omega)]
        · rw [if_neg fun hc => h hc.1, hprev i hi]
          congr 1
          rw [eq_iff_iff]
          omega
  obtain ⟨b', heq, _, h⟩ := hfold (n - 1) (by omega)
  rw [combine, heq, h i hi]
  by_cases h0 : i = 0
  · rw [if_pos (.inl h0), if_pos h0, h0]
  · rw [if_neg (by omega), if_neg h0]

/-- The three loops: `c` is put at the end, and the result is entry by entry the product of `c` and the others. -/
def inverses (mul : α → α → α) (a : List α) (n : ℕ) (p b : List α) : List α :=
  combine mul (prefixes mul a n p) n (suffixes mul a n b)

/-! ### The products -/

section

variable {mul : α → α → α} {v : α → M} (hmul : ∀ s t, v (mul s t) = v s * v t)

include hmul

theorem prefixes_spec {a b : List α} {n : ℕ} (hb : b.length = n) (hfirst : v (rd b 0) = v (rd a 0)) {i : ℕ}
    (hi : i < n) : v (rd (prefixes mul a n b) i) = ∏ j ∈ Finset.range (i + 1), v (rd a j) := by
  obtain ⟨h0, hstep⟩ := prefixes_step mul a hb (by omega)
  induction i with
  | zero => rw [h0, hfirst, Finset.prod_range_one]
  | succ i ih => rw [hstep i hi, hmul, ih (by omega), Finset.prod_range_succ _ (i + 1)]

theorem suffixes_spec {a b : List α} {n : ℕ} (hb : b.length = n) {i : ℕ} (hi : i < n) :
    v (rd (suffixes mul a n b) i) = v (rd b (n - 1)) * ∏ j ∈ Finset.Ico (i + 1) n, v (rd a j) := by
  obtain ⟨_, hlast, hstep⟩ := suffixes_step mul a hb (by omega)
  -- from the last entry downwards
  obtain ⟨k, hk⟩ : ∃ k, i + k + 1 = n := ⟨n - (i + 1), by omega⟩
  induction k generalizing i with
  | zero =>
    obtain rfl : i = n - 1 := by omega
    rw [hlast, Finset.Ico_eq_empty_of_le (by omega), Finset.prod_empty, mul_one]
  | succ k ih =>
    rw [hstep i (by omega), hmul, ih (by omega) (by omega), mul_assoc, mul_comm (∏ j ∈ _, _),
      ← Finset.prod_eq_prod_Ico_succ_bot (show i + 1 < n by omega) (fun j => v (rd a j))]

/-- Every entry of the result times its value is the last entry of `b` times the product of all values. -/
theorem mul_inverses {a p b : List α} {n : ℕ} (hp : p.length = n) (hb : b.length = n)
    (hfirst : v (rd p 0) = v (rd a 0)) {i : ℕ} (hi : i < n) : v (rd (inverses mul a n p b) i) * v (rd a i) =
      v (rd b (n - 1)) * ∏ j ∈ Finset.range n, v (rd a j) := by
  obtain ⟨hl, _⟩ := suffixes_step mul a hb (by omega)
  have hsplit := Finset.prod_range_mul_prod_Ico (fun j => v (rd a j)) (le_of_lt hi)
  rw [Finset.prod_eq_prod_Ico_succ_bot hi] at hsplit
  rw [inverses, rd_combine mul _ hl hi, ← hsplit]
  by_cases h0 : i = 0
  · subst h0
    rw [if_pos rfl, suffixes_spec hmul hb hi, Finset.prod_range_zero, one_mul, mul_assoc, mul_comm (∏ j ∈ _, _)]
  · rw [if_neg h0, hmul, suffixes_spec hmul hb hi, prefixes_spec hmul hp hfirst (by omega),
      Nat.sub_add_cancel (by omega)]
    simp only [mul_comm, mul_left_comm]

end

/-- With at least two values every entry of the result is a product. -/
theorem exists_inverses_eq_mul (mul : α → α → α) (a p : List α) {b : List α} {n : ℕ} (h2 : 2 ≤ n) (hb : b.length = n)
    {i : ℕ} (hi : i < n) : ∃ s t, rd (inverses mul a n p b) i = mul s t := by
  obtain ⟨hl, _, hstep⟩ := suffixes_step mul a hb (by omega)
  rw [inverses, rd_combine mul _ hl hi]
  by_cases h0 : i = 0
  · rw [if_pos h0, hstep 0 (by omega)]
    exact ⟨_, _, rfl⟩
  · rw [if_neg h0]
    exact ⟨_, _, rfl⟩

end BatchInverse
