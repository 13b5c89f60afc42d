import DfVrf.Crypto.Mq
import Mathlib.Algebra.BigOperators.Fin
import Mathlib.Data.Vector.Defs
import Mathlib.Tactic.Ring
import Mathlib.Tactic.Positivity

/-!
# The norm test of the C code (`common.c`)

`is_short` adds up squares in 32-bit arithmetic; the bits of all partial sums are collected in `ng`, so that a
sum that ever reached `2 ^ 31` counts as `2 ^ 32 - 1`.  A square of a 16-bit value is at most `2 ^ 30`, hence the
first partial sum that does not fit in 31 bits is still exact and is caught: the test compares the true sum with
the bound (`isShort_iff`).  Splitting the sum between a caller and `is_short_half` makes no difference
(`isShort_exact`).
-/

namespace DfVrf.Crypto

open InPlace

/-- The acceptance bound on the squared norm, indexed by `logn`; the bounds are inclusive. -/
def l2bound : List UInt32 :=
  [0, 101498, 208714, 428865, 892039, 1852696, 3842630, 7959734, 16468416, 34034726, 70265242]

/-- One accumulation: `s += z * z; ng |= s`. -/
def isShortStep (st : UInt32 × UInt32) (z : Int16) : UInt32 × UInt32 :=
  let z := z.toInt32
  let s := st.1 + (z * z).toUInt32
  (s, st.2 ||| s)

def isShort (s1 s2 : List Int16) (logn : ℕ) : Bool :=
  let n := 1 <<< logn
  let (s, ng) := (List.range n).foldl (fun st u => isShortStep (isShortStep st (rd s1 u)) (rd s2 u)) (0, 0)
  let s := s ||| -(ng >>> 31)
  s ≤ rd l2bound logn

def isShortHalf (sqn : UInt32) (s2 : List Int16) (logn : ℕ) : Bool :=
  let n := 1 <<< logn
  let ng := -(sqn >>> 31)
  let (sqn, ng) := (List.range n).foldl (fun st u => isShortStep st (rd s2 u)) (sqn, ng)
  let sqn := sqn ||| -(ng >>> 31)
  sqn ≤ rd l2bound logn

/-- The first half of the squared norm, as the callers of `is_short_half` accumulate it. -/
def sqnHalf (s1 : List Int16) (logn : ℕ) : UInt32 :=
  let n := 1 <<< logn
  let (sqn, ng) := (List.range n).foldl (fun st u => isShortStep st (rd s1 u)) (0, 0)
  sqn ||| -(ng >>> 31)

/-! ### Squares of 16-bit values -/

/-- The square that one accumulation adds. -/
def sq (z : Int16) : ℕ := z.toInt.natAbs ^ 2

private theorem sq_le (z : Int16) : sq z ≤ 2 ^ 30 := by
  have h1 := z.le_toInt
  have h2 := z.toInt_lt
  have h : z.toInt.natAbs ≤ 2 ^ 15 := by omega
  calc sq z ≤ (2 ^ 15) ^ 2 := Nat.pow_le_pow_left h 2
    _ = 2 ^ 30 := by norm_num

private theorem toNat_square (z : Int16) : (z.toInt32 * z.toInt32).toUInt32.toNat = sq z := by
  have hsq : z.toInt * z.toInt = (sq z : ℤ) := by
    rw [sq, Nat.cast_pow, Int.natCast_natAbs, sq_abs, pow_two]
  have hle := sq_le z
  have hi : (z.toInt32 * z.toInt32).toInt = sq z := by
    rw [Int32.toInt_mul, Int16.toInt_toInt32, hsq]
    apply Int.bmod_eq_of_le <;> omega
  have h := toNat_toUInt32 (z.toInt32 * z.toInt32)
  rw [hi] at h
  omega

/-! ### The saturating sum -/

theorem two_pow_31_le_or (x y : UInt32) : 2 ^ 31 ≤ (x ||| y).toNat ↔ 2 ^ 31 ≤ x.toNat ∨ 2 ^ 31 ≤ y.toNat := by
  rw [UInt32.toNat_or]
  constructor
  · intro h
    by_contra hc
    have hx : x.toNat < 2 ^ 31 := by omega
    have hy : y.toNat < 2 ^ 31 := by omega
    have := Nat.or_lt_two_pow hx hy
    omega
  · rintro (h | h)
    · exact le_trans h Nat.left_le_or
    · exact le_trans h Nat.right_le_or

/-- The accumulator stands for the sum `T`: exact below `2 ^ 31`, and marked as overflowed from there on. -/
def Saturates (st : UInt32 × UInt32) (T : ℕ) : Prop :=
  (T < 2 ^ 31 ∧ st.1.toNat = T ∧ st.2.toNat < 2 ^ 31) ∨ (2 ^ 31 ≤ T ∧ 2 ^ 31 ≤ st.2.toNat)

theorem Saturates.step {st : UInt32 × UInt32} {T : ℕ} (h : Saturates st T) (z : Int16) :
    Saturates (isShortStep st z) (T + sq z) := by
  have hle := sq_le z
  have hor := two_pow_31_le_or st.2 (isShortStep st z).1
  have hng : (isShortStep st z).2 = st.2 ||| (isShortStep st z).1 := rfl
  rw [← hng] at hor
  -- below `2 ^ 31` the sum has not wrapped; afterwards the mark stays
  rcases h with ⟨hT, hs, hn⟩ | ⟨hT, hn⟩
  · have hs' : (isShortStep st z).1.toNat = T + sq z := by
      rw [isShortStep, UInt32.toNat_add, toNat_square, hs, Nat.mod_eq_of_lt (by omega)]
    by_cases hc : T + sq z < 2 ^ 31
    · exact Or.inl ⟨hc, hs', by omega⟩
    · exact Or.inr ⟨by omega, hor.2 (Or.inr (by omega))⟩
  · exact Or.inr ⟨by omega, hor.2 (Or.inl hn)⟩

/-- The value that is made of the accumulator at the end. -/
theorem Saturates.toNat {st : UInt32 × UInt32} {T : ℕ} (h : Saturates st T) :
    (T < 2 ^ 31 ∧ (st.1 ||| -(st.2 >>> 31)).toNat = T) ∨
      (2 ^ 31 ≤ T ∧ 2 ^ 31 ≤ (st.1 ||| -(st.2 >>> 31)).toNat) := by
  rw [neg_shift_31]
  rcases h with ⟨hT, hs, hn⟩ | ⟨hT, hn⟩
  · rw [if_pos hn, UInt32.or_zero, hs]
    exact .inl ⟨hT, rfl⟩
  · rw [if_neg (by omega)]
    exact .inr ⟨hT, (two_pow_31_le_or _ _).2 (.inr (by decide))⟩

/-- Comparing the saturated accumulator with a 31-bit bound compares the sum. -/
theorem Saturates.le_iff {st : UInt32 × UInt32} {T : ℕ} (h : Saturates st T) {b : UInt32}
    (hb : b.toNat < 2 ^ 31) : st.1 ||| -(st.2 >>> 31) ≤ b ↔ T ≤ b.toNat := by
  rw [UInt32.le_iff_toNat_le]
  rcases h.toNat with ⟨_, heq⟩ | ⟨hT, hle⟩
  · rw [heq]
  · constructor <;> intro <;> omega

private theorem l2bound_lt (logn : ℕ) : (rd l2bound logn).toNat < 2 ^ 31 := by
  by_cases h : logn < 11
  · have hall : l2bound.all (fun b => b.toNat < 2 ^ 31) = true := by decide
    simpa using all_rd hall (show logn < l2bound.length from h)
  · have hd : rd l2bound logn = 0 := by
      rw [rd, List.getD_eq_default]
      · rfl
      · simp [l2bound]
        omega
    rw [hd]
    decide

/-! ### The tests -/

private theorem saturates_isShort (s1 s2 : List Int16) (n : ℕ) : Saturates
    ((List.range n).foldl (fun st u => isShortStep (isShortStep st (rd s1 u)) (rd s2 u)) (0, 0))
    (∑ u ∈ Finset.range n, (sq (rd s1 u) + sq (rd s2 u))) := by
  induction n with
  | zero => exact Or.inl ⟨by norm_num, rfl, show (0 : UInt32).toNat < 2 ^ 31 by decide⟩
  | succ n ih =>
    rw [List.range_succ, List.foldl_append, Finset.sum_range_succ, ← add_assoc]
    exact (ih.step _).step _

/-- `is_short` accepts exactly the pairs whose squared norm is at most the bound. -/
theorem isShort_iff (s1 s2 : List Int16) (logn : ℕ) : isShort s1 s2 logn = true ↔
    ∑ u ∈ Finset.range (2 ^ logn), (sq (rd s1 u) + sq (rd s2 u)) ≤ (rd l2bound logn).toNat := by
  have h := (saturates_isShort s1 s2 (1 <<< logn)).le_iff (l2bound_lt logn)
  rw [Nat.shiftLeft_eq, one_mul] at h
  rw [isShort, decide_eq_true_iff, Nat.shiftLeft_eq, one_mul]
  exact h

private theorem saturates_isShortHalf (sqn : UInt32) (s2 : List Int16) (n : ℕ) : Saturates
    ((List.range n).foldl (fun st u => isShortStep st (rd s2 u)) (sqn, -(sqn >>> 31)))
    (sqn.toNat + ∑ u ∈ Finset.range n, sq (rd s2 u)) := by
  induction n with
  | zero =>
    rw [Finset.sum_range_zero, add_zero, neg_shift_31]
    by_cases h : sqn.toNat < 2 ^ 31
    · rw [if_pos h]
      exact Or.inl ⟨h, rfl, show (0 : UInt32).toNat < 2 ^ 31 by decide⟩
    · rw [if_neg h]
      exact Or.inr ⟨by omega, show 2 ^ 31 ≤ (0xFFFFFFFF : UInt32).toNat by decide⟩
  | succ n ih =>
    rw [List.range_succ, List.foldl_append, Finset.sum_range_succ, ← add_assoc]
    exact ih.step _

/-- `is_short_half` is given one half of the squared norm. -/
theorem isShortHalf_iff (sqn : UInt32) (s2 : List Int16) (logn : ℕ) : isShortHalf sqn s2 logn = true ↔
    sqn.toNat + ∑ u ∈ Finset.range (2 ^ logn), sq (rd s2 u) ≤ (rd l2bound logn).toNat := by
  have h := (saturates_isShortHalf sqn s2 (1 <<< logn)).le_iff (l2bound_lt logn)
  rw [Nat.shiftLeft_eq, one_mul] at h
  rw [isShortHalf, decide_eq_true_iff, Nat.shiftLeft_eq, one_mul]
  exact h

private theorem saturates_sqnHalf (s1 : List Int16) (n : ℕ) : Saturates
    ((List.range n).foldl (fun st u => isShortStep st (rd s1 u)) (0, 0)) (∑ u ∈ Finset.range n, sq (rd s1 u)) := by
  have h := saturates_isShortHalf 0 s1 n
  rwa [UInt32.toNat_zero, zero_add] at h

theorem sum_sq_eq (a : List Int16) (n : ℕ) :
    ((∑ u ∈ Finset.range n, sq (rd a u) : ℕ) : ℤ) = ∑ u ∈ Finset.range n, (rd a u).toInt ^ 2 := by
  rw [Nat.cast_sum]
  refine Finset.sum_congr rfl fun u _ => ?_
  rw [sq, Nat.cast_pow, Int.natCast_natAbs, sq_abs]

/-- A first half that is saturated is above every bound, and one that is not is exact. -/
private theorem isShortHalf_sqnHalf (s1 s2 : List Int16) (logn : ℕ) :
    isShortHalf (sqnHalf s1 logn) s2 logn = isShort s1 s2 logn := by
  rw [Bool.eq_iff_iff, isShortHalf_iff, isShort_iff, Finset.sum_add_distrib]
  have hb := l2bound_lt logn
  have hhalf := (saturates_sqnHalf s1 (1 <<< logn)).toNat
  rw [Nat.shiftLeft_eq, one_mul] at hhalf
  unfold sqnHalf
  simp only [Nat.shiftLeft_eq, one_mul]
  rcases hhalf with ⟨_, heq⟩ | ⟨hT, hle⟩
  · rw [heq]
  · constructor <;> intro <;> omega

/-- `is_short` accepts exactly the pairs whose sum of squares is at most the bound, for all 16-bit values, and
`is_short_half` gives the same answer when the squares of `s1` are accumulated by the caller. -/
theorem isShort_exact {logn : ℕ} (s1 s2 : List.Vector Int16 (2 ^ logn)) :
    (isShort s1.1 s2.1 logn = true ↔ ∑ u ∈ Finset.range (2 ^ logn), ((rd s1.1 u).toInt ^ 2 + (rd s2.1 u).toInt ^ 2) ≤
      ((rd l2bound logn).toNat : ℤ)) ∧
    isShortHalf (sqnHalf s1.1 logn) s2.1 logn = isShort s1.1 s2.1 logn := by
  refine ⟨?_, isShortHalf_sqnHalf s1.1 s2.1 logn⟩
  rw [isShort_iff, Finset.sum_add_distrib, Finset.sum_add_distrib, ← sum_sq_eq, ← sum_sq_eq]
  exact_mod_cast Iff.rfl

end DfVrf.Crypto
