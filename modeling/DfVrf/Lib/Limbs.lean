import Mathlib.Algebra.BigOperators.Group.Finset.Basic
import Mathlib.Algebra.BigOperators.Ring.Finset
import Mathlib.Algebra.Order.BigOperators.Group.Finset
import Mathlib.Data.Int.GCD
import Mathlib.Data.Int.ModEq
import Mathlib.RingTheory.Coprime.Basic
import Mathlib.Tactic.Ring
import Mathlib.Tactic.LinearCombination
import Mathlib.Tactic.Linarith

/-!
# Numbers in limbs

A number is an array of limbs in memory, the least significant first.  A loop over two arrays writes limbs to a third
one, which may be one of the two, and passes a carry on.

* `carryLoop_spec`: what one iteration does to limbs and carry, the loop does to the numbers; nothing else is written.
* `foldl_independent`: a loop over numbers in separate places.
-/

namespace Limbs

open Finset

variable {α γ : Type*}

/-- The number in the `len` limbs from the address `a` on, in the base `B`. -/
def value (B : ℕ) (val : α → ℕ) (mem : ℕ → α) (a len : ℕ) : ℕ := ∑ i ∈ range len, val (mem (a + i)) * B ^ i

/-- One iteration: the limbs `i` of the arrays at `a` and `b` and the carry make the limb `i` of the array at `d` and
the next carry. -/
def carryStep (step : α → α → γ → α × γ) (d a b : ℕ) (st : (ℕ → α) × γ) (i : ℕ) : (ℕ → α) × γ :=
  let r := step (st.1 (a + i)) (st.1 (b + i)) st.2
  (Function.update st.1 (d + i) r.1, r.2)

/-- The loop over `len` limbs. -/
def carryLoop (step : α → α → γ → α × γ) (d a b len : ℕ) (mem : ℕ → α) (c : γ) : (ℕ → α) × γ :=
  (List.range len).foldl (carryStep step d a b) (mem, c)

/-- Two arrays of `len` limbs are one array or disjoint. -/
def Aligned (d a len : ℕ) : Prop := d = a ∨ d + len ≤ a ∨ a + len ≤ d

theorem Aligned.refl (a len : ℕ) : Aligned a a len := .inl rfl

section Value

variable {B : ℕ} {val : α → ℕ} {mem mem' : ℕ → α} {a len : ℕ}

theorem value_succ : value B val mem a (len + 1) = value B val mem a len + val (mem (a + len)) * B ^ len := by
  unfold value
  rw [sum_range_succ]

theorem value_congr (h : ∀ i < len, mem' (a + i) = mem (a + i)) : value B val mem' a len = value B val mem a len := by
  unfold value
  refine sum_congr rfl fun i hi => ?_
  rw [h i (mem_range.1 hi)]

theorem cast_value : (value B val mem a len : ℤ) = ∑ i ∈ range len, (val (mem (a + i)) : ℤ) * B ^ i := by
  unfold value
  push_cast
  rfl

theorem sum_add_eq (b : ℕ) : ∑ i ∈ range len, ((val (mem (a + i)) : ℤ) + val (mem (b + i))) * B ^ i =
    value B val mem a len + value B val mem b len := by
  rw [cast_value, cast_value, ← sum_add_distrib]
  exact sum_congr rfl fun i _ => add_mul _ _ _

theorem sum_sub_eq (b : ℕ) : ∑ i ∈ range len, ((val (mem (a + i)) : ℤ) - val (mem (b + i))) * B ^ i =
    value B val mem a len - value B val mem b len := by
  rw [cast_value, cast_value, ← sum_sub_distrib]
  exact sum_congr rfl fun i _ => sub_mul _ _ _

theorem sum_mul_eq (q : ℤ) : ∑ i ∈ range len, q * (val (mem (a + i)) : ℤ) * B ^ i = q * value B val mem a len := by
  rw [cast_value, mul_sum]
  exact sum_congr rfl fun i _ => mul_assoc _ _ _

/-- Limbs below the base make a number below its power. -/
theorem value_lt (hB : 0 < B) (h : ∀ i < len, val (mem (a + i)) < B) : value B val mem a len < B ^ len := by
  induction len with
  | zero => simp [value]
  | succ len ih =>
    have hlow := ih fun i hi => h i (by omega)
    have hhigh := Nat.mul_le_mul_right (B ^ len) (Nat.le_sub_one_of_lt (h len (by omega)))
    have hpow : (B - 1) * B ^ len + B ^ len = B ^ (len + 1) := by
      rw [← Nat.succ_mul, Nat.succ_eq_add_one, Nat.sub_add_cancel hB, pow_succ, Nat.mul_comm]
    rw [value_succ]
    omega

/-- The lowest limb decides the parity, in an even base. -/
theorem value_mod_two (hB : 2 ∣ B) (hlen : 0 < len) : value B val mem a len % 2 = val (mem a) % 2 := by
  obtain ⟨k, rfl⟩ : ∃ k, len = k + 1 := ⟨len - 1, by omega⟩
  induction k with
  | zero => simp [value]
  | succ k ih =>
    obtain ⟨t, ht⟩ : 2 ∣ val (mem (a + (k + 1))) * B ^ (k + 1) := Dvd.dvd.mul_left (dvd_pow hB (Nat.succ_ne_zero k)) _
    have hlow := ih (Nat.succ_pos k)
    rw [value_succ, ht]
    omega

end Value

section Loop

variable {B : ℕ} {val : α → ℕ} {κ : γ → ℤ} {ok : α → Prop} {okc : γ → Prop} {step : α → α → γ → α × γ}
  {φ : α → α → ℤ}

/-- An iteration keeps limbs and carries in range, and computes `φ` exactly; `κ` is the value of a carry. -/
def ExactStep (B : ℕ) (val : α → ℕ) (κ : γ → ℤ) (ok : α → Prop) (okc : γ → Prop) (step : α → α → γ → α × γ)
    (φ : α → α → ℤ) : Prop :=
  ∀ x y c, ok x → ok y → okc c → ok (step x y c).1 ∧ okc (step x y c).2 ∧
    (val (step x y c).1 : ℤ) + B * κ (step x y c).2 = φ x y + κ c

theorem carryLoop_succ (d a b len : ℕ) (mem : ℕ → α) (c : γ) : carryLoop step d a b (len + 1) mem c =
    carryStep step d a b (carryLoop step d a b len mem c) len := by
  unfold carryLoop
  rw [List.range_succ, List.foldl_append]
  rfl

/-- The loop writes the array at `d` only. -/
theorem carryLoop_frame (d a b len : ℕ) (mem : ℕ → α) (c : γ) {j : ℕ} (hj : j < d ∨ d + len ≤ j) :
    (carryLoop step d a b len mem c).1 j = mem j := by
  induction len with
  | zero => rfl
  | succ len ih =>
    rw [carryLoop_succ]
    unfold carryStep
    simp only
    rw [Function.update_of_ne (by omega)]
    exact ih (by omega)

/-- An iteration that is exact makes a loop that is exact, on arrays that are the same or disjoint. -/
theorem carryLoop_spec (hstep : ExactStep B val κ ok okc step φ) {d a b len : ℕ} {mem : ℕ → α} {c : γ}
    (hda : Aligned d a len) (hdb : Aligned d b len) (ha : ∀ i < len, ok (mem (a + i)))
    (hb : ∀ i < len, ok (mem (b + i))) (hc : okc c) {k : ℕ} (hk : k ≤ len) :
    (∀ i < k, ok ((carryLoop step d a b k mem c).1 (d + i))) ∧ okc (carryLoop step d a b k mem c).2 ∧
      (value B val (carryLoop step d a b k mem c).1 d k : ℤ) + B ^ k * κ (carryLoop step d a b k mem c).2 =
        ∑ i ∈ range k, φ (mem (a + i)) (mem (b + i)) * B ^ i + κ c := by
  induction k with
  | zero => simp [carryLoop, value, hc]
  | succ k ih =>
    obtain ⟨hok, hcarry, hval⟩ := ih (by omega)
    -- the limbs to be read have not been written
    have hread : ∀ e, Aligned d e len → (carryLoop step d a b k mem c).1 (e + k) = mem (e + k) := by
      intro e he
      unfold Aligned at he
      exact carryLoop_frame d a b k mem c (by omega)
    have hra := hread a hda
    have hrb := hread b hdb
    rw [carryLoop_succ]
    generalize carryLoop step d a b k mem c = r at hok hcarry hval hra hrb ⊢
    obtain ⟨mem', c'⟩ := r
    simp only at hra hrb
    simp only [carryStep, hra, hrb]
    obtain ⟨h1, h2, h3⟩ := hstep _ _ c' (ha k (by omega)) (hb k (by omega)) hcarry
    generalize step (mem (a + k)) (mem (b + k)) c' = t at h1 h2 h3 ⊢
    have hsame : ∀ i < k, Function.update mem' (d + k) t.1 (d + i) = mem' (d + i) := by
      intro i hi
      exact Function.update_of_ne (by omega) _ _
    refine ⟨fun i hi => ?_, h2, ?_⟩
    · by_cases hik : i = k
      · rw [hik, Function.update_self]
        exact h1
      · rw [hsame i (by omega)]
        exact hok i (by omega)
    · rw [value_succ, value_congr hsame, Function.update_self, sum_range_succ]
      push_cast
      linear_combination hval + (B : ℤ) ^ k * h3

/-- The limbs of a loop whose top limb is only congruent, modulo the power of the base: the number in the source may be
larger than the array, or the last carry is dropped. -/
theorem carryLoop_modEq (hstep : ExactStep B val κ ok okc step φ) {d a b len : ℕ} (mem : ℕ → α) {c : γ}
    (htop : ∀ c, okc c → ok (step (mem (a + len)) (mem (b + len)) c).1 ∧
      (val (step (mem (a + len)) (mem (b + len)) c).1 : ℤ) ≡ φ (mem (a + len)) (mem (b + len)) + κ c [ZMOD B])
    (hda : Aligned d a (len + 1)) (hdb : Aligned d b (len + 1)) (ha : ∀ i < len, ok (mem (a + i)))
    (hb : ∀ i < len, ok (mem (b + i))) (hc : okc c) :
    (∀ i < len + 1, ok ((carryLoop step d a b (len + 1) mem c).1 (d + i))) ∧
      (value B val (carryLoop step d a b (len + 1) mem c).1 d (len + 1) : ℤ) ≡
        ∑ i ∈ range (len + 1), φ (mem (a + i)) (mem (b + i)) * B ^ i + κ c [ZMOD B ^ (len + 1)] := by
  have hlow : ∀ e, Aligned d e (len + 1) → Aligned d e len := by
    intro e he
    unfold Aligned at he ⊢
    omega
  obtain ⟨hok, hcarry, hval⟩ := carryLoop_spec hstep (hlow a hda) (hlow b hdb) ha hb hc le_rfl
  have hread : ∀ e, Aligned d e (len + 1) → (carryLoop step d a b len mem c).1 (e + len) = mem (e + len) := by
    intro e he
    unfold Aligned at he
    exact carryLoop_frame d a b len mem c (by omega)
  have hra := hread a hda
  have hrb := hread b hdb
  rw [carryLoop_succ]
  generalize carryLoop step d a b len mem c = r at hok hcarry hval hra hrb ⊢
  obtain ⟨mem', c'⟩ := r
  simp only at hra hrb hcarry hval hok
  simp only [carryStep, hra, hrb]
  obtain ⟨h1, h2⟩ := htop c' hcarry
  generalize step (mem (a + len)) (mem (b + len)) c' = t at h1 h2 ⊢
  have hsame : ∀ i < len, Function.update mem' (d + len) t.1 (d + i) = mem' (d + i) := by
    intro i hi
    exact Function.update_of_ne (by omega) _ _
  refine ⟨fun i hi => ?_, ?_⟩
  · by_cases hil : i = len
    · rw [hil, Function.update_self]
      exact h1
    · rw [hsame i (by omega)]
      exact hok i (by omega)
  · rw [value_succ, value_congr hsame, Function.update_self, sum_range_succ, Int.modEq_iff_dvd]
    obtain ⟨e, he⟩ := h2.dvd
    refine ⟨e, ?_⟩
    push_cast
    linear_combination -hval + (B : ℤ) ^ len * he

end Loop

/-! ### Two numbers, one place lower

The loop reads a limb of each of the arrays at `a`, `b` and `m`, and writes back the limbs at `a` and `b` one place
lower: both numbers are replaced by combinations of all three, divided by the base. -/

section Pair

variable {B : ℕ} {val : α → ℕ} {κ : γ → ℤ} {ok : α → Prop} {okc : γ → Prop}

/-- One iteration, on the memory and the two carries. -/
def pairStep (sa sb : α → α → α → γ → α × γ) (a b m : ℕ) (st : (ℕ → α) × γ × γ) (i : ℕ) : (ℕ → α) × γ × γ :=
  let ra := sa (st.1 (a + i)) (st.1 (b + i)) (st.1 (m + i)) st.2.1
  let rb := sb (st.1 (a + i)) (st.1 (b + i)) (st.1 (m + i)) st.2.2
  (if i > 0 then Function.update (Function.update st.1 (a + (i - 1)) ra.1) (b + (i - 1)) rb.1 else st.1, ra.2, rb.2)

/-- The loop over `len` limbs. -/
def pairLoop (sa sb : α → α → α → γ → α × γ) (a b m len : ℕ) (mem : ℕ → α) (c : γ) : (ℕ → α) × γ × γ :=
  (List.range len).foldl (pairStep sa sb a b m) (mem, c, c)

private theorem pairLoop_succ (sa sb : α → α → α → γ → α × γ) (a b m len : ℕ) (mem : ℕ → α) (c : γ) :
    pairLoop sa sb a b m (len + 1) mem c = pairStep sa sb a b m (pairLoop sa sb a b m len mem c) len := by
  unfold pairLoop
  rw [List.range_succ, List.foldl_append]
  rfl

/-- Only the two arrays are written, up to their last limbs but one. -/
theorem pairLoop_frame (sa sb : α → α → α → γ → α × γ) (a b m len : ℕ) (mem : ℕ → α) (c : γ) {j : ℕ}
    (ha : j < a ∨ a + len ≤ j) (hb : j < b ∨ b + len ≤ j) : (pairLoop sa sb a b m len mem c).1 j = mem j := by
  induction len with
  | zero => rfl
  | succ len ih =>
    rw [pairLoop_succ, ← ih (by omega) (by omega)]
    unfold pairStep
    simp only
    split
    · rw [Function.update_of_ne (by omega), Function.update_of_ne (by omega)]
    · rfl

/-- One of the two combinations is exact in an iteration. -/
def PairExact (B : ℕ) (val : α → ℕ) (κ : γ → ℤ) (ok : α → Prop) (okc : γ → Prop) (step : α → α → α → γ → α × γ)
    (φ : α → α → α → ℤ) : Prop :=
  ∀ x y z c, ok x → ok y → ok z → okc c → ok (step x y z c).1 ∧ okc (step x y z c).2 ∧
    (val (step x y z c).1 : ℤ) + B * κ (step x y z c).2 = φ x y z + κ c

/-- What an array and its carry make after the limbs up to `k`: the combination of the first `k + 1` limbs is this
number times the base, and a dropped limb. -/
def Shifted (B : ℕ) (val : α → ℕ) (κ : γ → ℤ) (ok : α → Prop) (okc : γ → Prop) (mem : ℕ → α) (a k : ℕ) (c : γ)
    (T : ℤ) : Prop :=
  (∀ i < k, ok (mem (a + i))) ∧ okc c ∧ ∃ d, ok d ∧ (val d : ℤ) + B * (value B val mem a k + B ^ k * κ c) = T

/-- The step for one of the arrays, with the memory `mem'` after the writes. -/
theorem Shifted.step {s : α → α → α → γ → α × γ} {φ : α → α → α → ℤ} (hs : PairExact B val κ ok okc s φ)
    {mem mem' : ℕ → α}
    {a k : ℕ} {c : γ} {T : ℤ} (h : Shifted B val κ ok okc mem a k c T) {x y z : α} (hx : ok x) (hy : ok y) (hz : ok z)
    (hsame : ∀ i < k, mem' (a + i) = mem (a + i)) (hnew : mem' (a + k) = (s x y z c).1) :
    Shifted B val κ ok okc mem' a (k + 1) (s x y z c).2 (T + B ^ (k + 1) * φ x y z) := by
  obtain ⟨hok, hc, d, hd, hval⟩ := h
  obtain ⟨h1, h2, h3⟩ := hs x y z c hx hy hz hc
  refine ⟨fun i hi => ?_, h2, d, hd, ?_⟩
  · by_cases hik : i = k
    · rw [hik, hnew]
      exact h1
    · rw [hsame i (by omega)]
      exact hok i (by omega)
  · rw [value_succ, value_congr hsame, hnew]
    push_cast
    linear_combination hval + (B : ℤ) ^ (k + 1) * h3

variable {sa sb : α → α → α → γ → α × γ} {φa φb : α → α → α → ℤ} {mem : ℕ → α} {a b m len : ℕ} {c : γ}

/-- The state after `k + 1` iterations, for disjoint arrays; `m` may be the array `a`, or one that is not written. -/
theorem pairLoop_spec (ha' : PairExact B val κ ok okc sa φa) (hb' : PairExact B val κ ok okc sb φb)
    (hab : a + len ≤ b ∨ b + len ≤ a) (hma : Aligned m a len) (hmb : m + len ≤ b ∨ b + len ≤ m)
    (ha : ∀ i < len, ok (mem (a + i))) (hb : ∀ i < len, ok (mem (b + i))) (hm : ∀ i < len, ok (mem (m + i)))
    (hc : okc c) {k : ℕ} (hk : k < len) :
    Shifted B val κ ok okc (pairLoop sa sb a b m (k + 1) mem c).1 a k (pairLoop sa sb a b m (k + 1) mem c).2.1
        (∑ i ∈ range (k + 1), φa (mem (a + i)) (mem (b + i)) (mem (m + i)) * B ^ i + κ c) ∧
      Shifted B val κ ok okc (pairLoop sa sb a b m (k + 1) mem c).1 b k (pairLoop sa sb a b m (k + 1) mem c).2.2
        (∑ i ∈ range (k + 1), φb (mem (a + i)) (mem (b + i)) (mem (m + i)) * B ^ i + κ c) ∧
      ∀ j, (j < a ∨ a + k ≤ j) → (j < b ∨ b + k ≤ j) → (pairLoop sa sb a b m (k + 1) mem c).1 j = mem j := by
  induction k with
  | zero =>
    have hone : ∀ {s : α → α → α → γ → α × γ} {φ : α → α → α → ℤ}, PairExact B val κ ok okc s φ → ∀ e,
        Shifted B val κ ok okc mem e 0 (s (mem (a + 0)) (mem (b + 0)) (mem (m + 0)) c).2
          (∑ i ∈ range (0 + 1), φ (mem (a + i)) (mem (b + i)) (mem (m + i)) * B ^ i + κ c) := by
      intro s φ hs e
      obtain ⟨h1, h2, h3⟩ := hs _ _ _ c (ha 0 hk) (hb 0 hk) (hm 0 hk) hc
      refine ⟨fun i hi => absurd hi (by omega), h2, _, h1, ?_⟩
      rw [sum_range_one, pow_zero, mul_one, ← h3]
      simp [value]
    exact ⟨hone ha' a, hone hb' b, fun j _ _ => rfl⟩
  | succ k ih =>
    obtain ⟨h1, h2, h3⟩ := ih (by omega)
    -- the limbs to be read have not been written
    unfold Aligned at hma
    have hra := h3 (a + (k + 1)) (by omega) (by omega)
    have hrb := h3 (b + (k + 1)) (by omega) (by omega)
    have hrm := h3 (m + (k + 1)) (by omega) (by omega)
    rw [pairLoop_succ]
    generalize pairLoop sa sb a b m (k + 1) mem c = st at h1 h2 h3 hra hrb hrm ⊢
    obtain ⟨mem', ca, cb⟩ := st
    simp only at h1 h2 h3 hra hrb hrm
    simp only [pairStep, hra, hrb, hrm, gt_iff_lt, Nat.succ_pos, if_true, Nat.add_sub_cancel]
    refine ⟨?_, ?_, fun j hja hjb => ?_⟩
    · rw [sum_range_succ, add_right_comm, mul_comm (φa _ _ _)]
      refine h1.step ha' (ha _ hk) (hb _ hk) (hm _ hk) (fun i hi => ?_) ?_
      · rw [Function.update_of_ne (by omega), Function.update_of_ne (by omega)]
      · rw [Function.update_of_ne (by omega), Function.update_self]
    · rw [sum_range_succ, add_right_comm, mul_comm (φb _ _ _)]
      refine h2.step hb' (ha _ hk) (hb _ hk) (hm _ hk) (fun i hi => ?_) ?_
      · rw [Function.update_of_ne (by omega), Function.update_of_ne (by omega)]
      · rw [Function.update_self]
    · rw [Function.update_of_ne (by omega), Function.update_of_ne (by omega)]
      exact h3 j (by omega) (by omega)

end Pair

/-! ### Independent updates -/

/-- A loop whose iterations `v` each establish `Post v` from `Pre v`, and keep what holds of the others. -/
theorem foldl_independent {σ : Type*} (op : σ → ℕ → σ) (Inv : σ → Prop) (Pre Post : ℕ → σ → Prop) {n : ℕ}
    (hop : ∀ v < n, ∀ s, Inv s → Pre v s → Inv (op s v) ∧ Post v (op s v))
    (hkeep : ∀ v < n, ∀ w < n, v ≠ w → ∀ s, (Pre w s → Pre w (op s v)) ∧ (Post w s → Post w (op s v))) {s : σ}
    (hs : Inv s) (hpre : ∀ v < n, Pre v s) :
    Inv ((List.range n).foldl op s) ∧ ∀ v < n, Post v ((List.range n).foldl op s) := by
  have hrun : ∀ k ≤ n, Inv ((List.range k).foldl op s) ∧ (∀ v < k, Post v ((List.range k).foldl op s)) ∧
      ∀ v < n, k ≤ v → Pre v ((List.range k).foldl op s) := by
    intro k hk
    induction k with
    | zero => exact ⟨hs, fun v hv => absurd hv (by omega), fun v hv _ => hpre v hv⟩
    | succ k ih =>
      obtain ⟨h1, h2, h3⟩ := ih (by omega)
      rw [List.range_succ, List.foldl_append, List.foldl_cons, List.foldl_nil]
      obtain ⟨h4, h5⟩ := hop k (by omega) _ h1 (h3 k (by omega) le_rfl)
      refine ⟨h4, fun v hv => ?_, fun v hv hkv => (hkeep k (by omega) v hv (by omega) _).1 (h3 v hv (by omega))⟩
      rcases Nat.lt_succ_iff_lt_or_eq.1 hv with hvk | rfl
      · exact (hkeep k (by omega) v (by omega) (by omega) _).2 (h2 v hvk)
      · exact h5
  obtain ⟨h1, h2, -⟩ := hrun n le_rfl
  exact ⟨h1, h2⟩

/-! ### Cofactors -/

/-- The Bézout cofactors in the range of the binary algorithm. -/
def IsBezout (x y u v : ℕ) : Prop := x * u = y * v + 1 ∧ u ≤ y ∧ v ≤ x

theorem IsBezout.pos {x y u v : ℕ} (h : IsBezout x y u v) : 0 < x ∧ 0 < u := by
  obtain ⟨h, -, -⟩ := h
  constructor
  · rcases Nat.eq_zero_or_pos x with rfl | hx
    · omega
    · exact hx
  · rcases Nat.eq_zero_or_pos u with rfl | hu
    · omega
    · exact hu

/-- The cofactors are unique. -/
theorem IsBezout.unique {x y u v u' v' : ℕ} (h : IsBezout x y u v) (h' : IsBezout x y u' v') : u = u' ∧ v = v' := by
  obtain ⟨hx, hu⟩ := h.pos
  obtain ⟨-, hu'⟩ := h'.pos
  obtain ⟨h1, h2, -⟩ := h
  obtain ⟨h1', h2', -⟩ := h'
  zify at h1 h1'
  -- the difference of the first cofactors is a multiple of `y`
  have hdvd : (y : ℤ) ∣ (u : ℤ) - u' := by
    refine ⟨((v : ℤ) - v') * u - v * (u - u'), ?_⟩
    linear_combination -((u : ℤ) - u') * h1 + (u : ℤ) * (h1 - h1')
  have hlt : |(u : ℤ) - u'| < y := by
    rw [abs_lt]
    omega
  have heq : u = u' := by
    have := Int.eq_zero_of_abs_lt_dvd hdvd hlt
    omega
  refine ⟨heq, ?_⟩
  subst heq
  have hy : (y : ℤ) ≠ 0 := by omega
  have hv : (y : ℤ) * v = y * v' := by linear_combination h1' - h1
  exact_mod_cast mul_left_cancel₀ hy hv

/-- Numbers below the operands that are cofactors modulo each of the operands are cofactors, unless the second operand
is one. -/
theorem mul_eq_mul_add_one_iff {x y u v : ℕ} (hu : u < y) (hv : v < x) (hy : (y : ℤ) ∣ x * u - 1)
    (hx : (x : ℤ) ∣ y * v + 1) : x * u = y * v + 1 ↔ 1 < y := by
  constructor
  · intro h
    by_contra hle
    obtain rfl : u = 0 := by omega
    omega
  · intro h1
    have hcop : IsCoprime (x : ℤ) y := by
      obtain ⟨k, hk⟩ := hy
      exact ⟨u, -k, by linear_combination hk⟩
    have hdvd : (x : ℤ) * y ∣ x * u - y * v - 1 := by
      refine hcop.mul_dvd ?_ ?_
      · have h := dvd_sub (Dvd.intro (u : ℤ) rfl : (x : ℤ) ∣ x * u) hx
        rwa [show (x : ℤ) * u - (y * v + 1) = x * u - y * v - 1 by ring] at h
      · have h := dvd_sub hy (Dvd.intro (v : ℤ) rfl : (y : ℤ) ∣ y * v)
        rwa [show (x : ℤ) * u - 1 - y * v = x * u - y * v - 1 by ring] at h
    have hxu : (x : ℤ) * u ≤ x * (y - 1) := mul_le_mul_of_nonneg_left (by omega) (by omega)
    have hyv : (y : ℤ) * v ≤ y * (x - 1) := mul_le_mul_of_nonneg_left (by omega) (by omega)
    have hyv0 : (0 : ℤ) ≤ y * v := by positivity
    have hxu0 : (0 : ℤ) ≤ x * u := by positivity
    have hlt : |(x : ℤ) * u - y * v - 1| < x * y := by
      rw [abs_lt]
      constructor <;> nlinarith
    have hzero := Int.eq_zero_of_abs_lt_dvd hdvd hlt
    zify
    linear_combination hzero

/-- The first cofactor is at least the second one if the second operand is the larger one. -/
theorem IsBezout.le_of_add {x y u v : ℕ} (h : IsBezout x (x + y) u v) : v ≤ u := by
  obtain ⟨hx, -⟩ := h.pos
  obtain ⟨h, -, -⟩ := h
  by_contra hlt
  have hle := Nat.mul_le_mul_left x (le_of_lt (not_le.1 hlt))
  rw [Nat.add_mul] at h
  omega

/-- The second cofactor is at least the first one if the first operand is the larger one. -/
theorem IsBezout.ge_of_add {x y u v : ℕ} (hx : 0 < x) (h : IsBezout (x + y) y u v) : u ≤ v := by
  obtain ⟨-, hu⟩ := h.pos
  obtain ⟨h, huy, -⟩ := h
  by_contra hlt
  have hle := Nat.mul_le_mul_left y (Nat.succ_le_of_lt (not_le.1 hlt))
  have hpos := Nat.mul_pos hx hu
  rw [Nat.add_mul] at h
  rw [Nat.mul_succ] at hle
  omega

end Limbs
