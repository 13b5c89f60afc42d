import DfVrf.Crypto.Modp
import DfVrf.Crypto.NtruDeepest

/-!
# Big integers of the key generator (`keygen.c`)

Integers in limbs of 31 bits, in memory, and their residues modulo small primes.

* `zintModSmallUnsigned_spec`, `zintModSmallSigned_spec`: the residue of an integer, which in the signed case is in
  two's complement.
* `zintNormZero_spec`: the representative of least absolute value.
-/

namespace DfVrf.Crypto

open Limbs

/-! ### The operations -/

/-- One iteration of `zint_sub`, with the mask `m` of the control bit. -/
def zintSubStep (m aw bw cc : UInt32) : UInt32 × UInt32 :=
  let w := aw - bw - cc
  (aw ^^^ (((w &&& 0x7FFFFFFF) ^^^ aw) &&& m), w >>> 31)

/-- `zint_sub`; the borrow is returned. -/
def zintSub (mem : ℕ → UInt32) (a b len : ℕ) (ctl : UInt32) : (ℕ → UInt32) × UInt32 :=
  carryLoop (zintSubStep (-ctl)) a a b len mem 0

/-- The word `u` of the loop of `zint_mod_small_unsigned`. -/
def zintModSmallStep (mem : ℕ → UInt32) (d : ℕ) (p p0i r2 : UInt32) (u : ℕ) (x : UInt32) : UInt32 :=
  let x := modpMontymul x r2 p p0i
  let w := mem (d + u) - p
  let w := w + (p &&& -(w >>> 31))
  modpAdd x w p

/-- `zint_mod_small_unsigned`, from the top word down. -/
def zintModSmallUnsigned (mem : ℕ → UInt32) (d dlen : ℕ) (p p0i r2 : UInt32) : UInt32 :=
  (List.range' 0 dlen).foldr (zintModSmallStep mem d p p0i r2) 0

/-- `zint_mod_small_signed`. -/
def zintModSmallSigned (mem : ℕ → UInt32) (d dlen : ℕ) (p p0i r2 rx : UInt32) : UInt32 :=
  if dlen = 0 then 0
  else
    let z := zintModSmallUnsigned mem d dlen p p0i r2
    modpSub z (rx &&& -(mem (d + (dlen - 1)) >>> 30)) p

/-- One iteration of `zint_add_mul_small`. -/
def zintAddMulSmallStep (s xw yw cc : UInt32) : UInt32 × UInt32 :=
  let z : UInt64 := yw.toUInt64 * s.toUInt64 + xw.toUInt64 + cc.toUInt64
  (z.toUInt32 &&& 0x7FFFFFFF, (z >>> 31).toUInt32)

/-- `zint_add_mul_small`: the new `x` has one more word. -/
def zintAddMulSmall (mem : ℕ → UInt32) (x y len : ℕ) (s : UInt32) : ℕ → UInt32 :=
  let r := carryLoop (zintAddMulSmallStep s) x x y len mem 0
  Function.update r.1 (x + len) r.2

/-- The word `u` of the comparison in `zint_norm_zero`, on the state `(r, bb)`. -/
def zintNormZeroStep (mem : ℕ → UInt32) (x p u : ℕ) (st : UInt32 × UInt32) : UInt32 × UInt32 :=
  let wx := mem (x + u)
  let wp := (mem (p + u) >>> 1) ||| (st.2 <<< 30)
  let bb := mem (p + u) &&& 1
  let cc := wp - wx
  let cc := ((-cc) >>> 31) ||| -(cc >>> 31)
  (st.1 ||| (cc &&& ((st.1 &&& 1) - 1)), bb)

/-- `zint_norm_zero`. -/
def zintNormZero (mem : ℕ → UInt32) (x p len : ℕ) : ℕ → UInt32 :=
  let r := ((List.range' 0 len).foldr (zintNormZeroStep mem x p) (0, 0)).1
  (zintSub mem x p len (r >>> 31)).1

/-! ### Values from the top word -/

theorem limbValue_succ_low (mem : ℕ → UInt32) (a k : ℕ) :
    limbValue mem a (k + 1) = (mem a).toNat + 2 ^ 31 * limbValue mem (a + 1) k := by
  unfold limbValue value
  rw [Finset.sum_range_succ', Finset.mul_sum, add_comm, pow_zero, mul_one, add_zero]
  congr 1
  refine Finset.sum_congr rfl fun i _ => ?_
  rw [show a + (i + 1) = a + 1 + i by ring, pow_succ]
  ring

theorem limbValue_succ (mem : ℕ → UInt32) (a k : ℕ) :
    limbValue mem a (k + 1) = limbValue mem a k + (mem (a + k)).toNat * (2 ^ 31) ^ k := value_succ

/-! ### Residues -/

section Residues

variable {p p0i : UInt32}

/-- A limb, reduced. -/
private theorem reduce_limb (h : IsModulus p p0i) {w : UInt32} (hw : w.toNat < 2 ^ 31) :
    Below p (w - p + (p &&& -((w - p) >>> 31))) ∧
      toZp p (w - p + (p &&& -((w - p) >>> 31))) = (w.toNat : ZMod p.toNat) := by
  have hlo := h.lower
  have hup := h.upper
  have hv : (w - p + (p &&& -((w - p) >>> 31))).toNat = if w.toNat < p.toNat then w.toNat else w.toNat - p.toNat := by
    rw [toNat_add_mask_of, UInt32.toNat_sub]
    split <;> split <;> omega
  constructor
  · rw [Below, hv]
    split <;> omega
  · rw [toZp, hv]
    split
    · rfl
    · rw [Nat.cast_sub (by omega), ZMod.natCast_self, sub_zero]

private theorem foldr_zintModSmallStep (h : IsModulus p p0i) {mem : ℕ → UInt32} {d u k : ℕ}
    (hd : IsLimbs mem (d + u) k) :
    Below p ((List.range' u k).foldr (zintModSmallStep mem d p p0i (modpR2 p p0i)) 0) ∧
      toZp p ((List.range' u k).foldr (zintModSmallStep mem d p p0i (modpR2 p p0i)) 0) =
        (limbValue mem (d + u) k : ZMod p.toNat) := by
  induction k generalizing u with
  | zero =>
    have hlo := h.lower
    refine ⟨?_, ?_⟩
    · rw [List.range'_zero, List.foldr_nil, Below, UInt32.toNat_zero]
      omega
    · simp [limbValue, value, toZp]
  | succ k ih =>
    have hnext : IsLimbs mem (d + (u + 1)) k := by
      intro i hi
      have := hd (i + 1) (by omega)
      rwa [show d + u + (i + 1) = d + (u + 1) + i by ring] at this
    obtain ⟨h1, h2⟩ := ih hnext
    obtain ⟨h3, h4⟩ := modpMontymul_plain h h1 (monty_modpR2 h)
    obtain ⟨h5, h6⟩ := reduce_limb h (show (mem (d + u)).toNat < 2 ^ 31 from hd 0 (by omega))
    obtain ⟨h7, h8⟩ := modpAdd_spec h h3 h5
    rw [List.range'_succ, List.foldr_cons]
    refine ⟨h7, ?_⟩
    rw [limbValue_succ_low, add_assoc d u 1]
    simp only [zintModSmallStep]
    rw [h8, h4, h6, h2]
    push_cast
    ring

/-- The residue of an integer. -/
theorem zintModSmallUnsigned_spec (h : IsModulus p p0i) {mem : ℕ → UInt32} {d len : ℕ} (hd : IsLimbs mem d len) :
    Below p (zintModSmallUnsigned mem d len p p0i (modpR2 p p0i)) ∧
      toZp p (zintModSmallUnsigned mem d len p p0i (modpR2 p p0i)) = (limbValue mem d len : ZMod p.toNat) :=
  foldr_zintModSmallStep h (u := 0) hd

/-- The limbs at `a` hold `X` in two's complement. -/
def IsSigned (mem : ℕ → UInt32) (a len : ℕ) (X : ℤ) : Prop :=
  IsLimbs mem a len ∧ 2 * |X| < (2 ^ 31) ^ len ∧
    (limbValue mem a len : ℤ) = if 0 ≤ X then X else X + (2 ^ 31) ^ len

theorem IsSigned.congr {mem mem' : ℕ → UInt32} {a len : ℕ} {X : ℤ} (hX : IsSigned mem a len X)
    (h : ∀ i < len, mem' (a + i) = mem (a + i)) : IsSigned mem' a len X := by
  obtain ⟨h1, h2, h3⟩ := hX
  refine ⟨h1.congr h, h2, ?_⟩
  rw [limbValue_congr h]
  exact h3

/-- The top bit is the sign. -/
private theorem IsSigned.top {mem : ℕ → UInt32} {a len : ℕ} {X : ℤ} (hX : IsSigned mem a (len + 1) X) :
    (mem (a + len) >>> 30).toNat = if 0 ≤ X then 0 else 1 := by
  obtain ⟨hlimbs, habs, hval⟩ := hX
  have htop := hlimbs len (by omega)
  have hlow : limbValue mem a len < (2 ^ 31) ^ len := limbValue_lt fun i hi => hlimbs i (by omega)
  rw [limbValue_succ] at hval
  have hshift : (mem (a + len) >>> 30).toNat = (mem (a + len)).toNat / 2 ^ 30 := by
    rw [UInt32.toNat_shiftRight, Nat.shiftRight_eq_div_pow]
    rfl
  obtain ⟨t, ht⟩ : ∃ t, (mem (a + len)).toNat = t := ⟨_, rfl⟩
  obtain ⟨B, hB⟩ : ∃ B : ℕ, (2 ^ 31) ^ len = B := ⟨_, rfl⟩
  have hBz : ((2 : ℤ) ^ 31) ^ len = B := by
    rw [← hB]
    push_cast
    rfl
  rw [hshift, ht]
  rw [ht] at htop
  rw [hB] at hlow
  rw [ht, hB, pow_succ, hBz] at hval
  rw [pow_succ, hBz] at habs
  push_cast at hval
  obtain ⟨hneg, hpos⟩ := abs_lt.1 (show |X| < 2 ^ 30 * B by linarith)
  have hlow' : (limbValue mem a len : ℤ) < B := by exact_mod_cast hlow
  split
  · rename_i h0
    rw [if_pos h0] at hval
    have hlt : t < 2 ^ 30 := by
      by_contra hge
      have hmul := Nat.mul_le_mul_right B (not_lt.1 hge)
      zify at hmul
      omega
    omega
  · rename_i h0
    rw [if_neg h0] at hval
    have hge : 2 ^ 30 ≤ t := by
      by_contra hlt
      have hmul := Nat.mul_le_mul_right B (Nat.succ_le_of_lt (not_le.1 hlt))
      rw [Nat.succ_mul] at hmul
      zify at hmul
      omega
    omega

/-- The residue of an integer in two's complement. -/
theorem zintModSmallSigned_spec (h : IsModulus p p0i) {mem : ℕ → UInt32} {d len : ℕ} {X : ℤ} (hX : IsSigned mem d len X)
    (hlen : 0 < len) :
    Below p (zintModSmallSigned mem d len p p0i (modpR2 p p0i) (modpRx len p p0i (modpR2 p p0i))) ∧
      toZp p (zintModSmallSigned mem d len p p0i (modpR2 p p0i) (modpRx len p p0i (modpR2 p p0i))) =
        (X : ZMod p.toNat) := by
  obtain ⟨k, rfl⟩ : ∃ k, len = k + 1 := ⟨len - 1, by omega⟩
  have htop := hX.top
  obtain ⟨hlimbs, -, hval⟩ := hX
  obtain ⟨h1, h2⟩ := zintModSmallUnsigned_spec h hlimbs
  obtain ⟨h3, h4⟩ := modpRx_spec h (show 0 < k + 1 by omega)
  have hcast := congrArg (Int.cast : ℤ → ZMod p.toNat) hval
  rw [Int.cast_natCast] at hcast
  have hzero : Below p 0 := by
    have hlo := h.lower
    rw [Below, UInt32.toNat_zero]
    omega
  unfold zintModSmallSigned
  rw [if_neg (by omega), Nat.add_sub_cancel]
  split at htop
  · rename_i h0
    rw [if_pos h0] at hcast
    rw [show mem (d + k) >>> 30 = 0 from UInt32.toNat_inj.1 htop, UInt32.neg_zero, UInt32.and_zero]
    obtain ⟨h5, h6⟩ := modpSub_spec h h1 hzero
    refine ⟨h5, ?_⟩
    simp only
    rw [h6, h2, hcast, toZp, UInt32.toNat_zero, Nat.cast_zero, sub_zero]
  · rename_i h0
    rw [if_neg h0] at hcast
    rw [show mem (d + k) >>> 30 = 1 from UInt32.toNat_inj.1 htop, UInt32.and_neg_one]
    obtain ⟨h5, h6⟩ := modpSub_spec h h1 h3
    refine ⟨h5, ?_⟩
    simp only
    rw [h6, h2, h4, hcast]
    push_cast
    ring

end Residues

/-! ### Sums -/

section Sums

variable {mem : ℕ → UInt32} {x y len : ℕ}

private theorem zintAddMulSmallStep_exact {s : UInt32} (hs : s.toNat < 2 ^ 31) : ExactStep (2 ^ 31) UInt32.toNat
    (fun c : UInt32 => (c.toNat : ℤ)) (fun x => x.toNat < 2 ^ 31) (fun c => c.toNat ≤ s.toNat) (zintAddMulSmallStep s)
    fun x y => (x.toNat : ℤ) + s.toNat * y.toNat := by
  intro x y c hx hy hc
  have hle : y.toNat * s.toNat ≤ (2 ^ 31 - 1) * s.toNat := Nat.mul_le_mul_right _ (by omega)
  obtain ⟨z, hz⟩ : ∃ z : UInt64, y.toUInt64 * s.toUInt64 + x.toUInt64 + c.toUInt64 = z := ⟨_, rfl⟩
  have hnat : z.toNat = y.toNat * s.toNat + x.toNat + c.toNat := by
    rw [← hz, UInt64.toNat_add, UInt64.toNat_add, UInt64.toNat_mul, UInt32.toNat_toUInt64, UInt32.toNat_toUInt64,
      UInt32.toNat_toUInt64, UInt32.toNat_toUInt64]
    omega
  have hlow : (z.toUInt32 &&& 0x7FFFFFFF).toNat = z.toNat % 2 ^ 31 := by
    rw [show (0x7FFFFFFF : UInt32) = limbMask from rfl, toNat_and_limbMask, UInt64.toNat_toUInt32]
    omega
  obtain ⟨-, hhigh⟩ := toNat_split (show z.toNat < 2 ^ 62 by omega)
  have hcomm : (s.toNat : ℤ) * y.toNat = (y.toNat * s.toNat : ℕ) := by
    push_cast
    exact mul_comm _ _
  simp only [zintAddMulSmallStep, hz, hlow, hhigh, hnat, hcomm]
  push_cast
  refine ⟨Nat.mod_lt _ (by omega), by omega, by omega⟩

theorem zintAddMulSmall_frame {s : UInt32} {j : ℕ} (hj : j < x ∨ x + len < j) :
    zintAddMulSmall mem x y len s j = mem j := by
  unfold zintAddMulSmall
  rw [Function.update_of_ne (by omega)]
  exact carryLoop_frame x x y len mem 0 (by omega)

/-- A carry stored above the top word. -/
private theorem push_carry {m : ℕ → UInt32} {a : ℕ} {c : UInt32} (h : IsLimbs m a len) (hc : c.toNat < 2 ^ 31) :
    IsLimbs (Function.update m (a + len) c) a (len + 1) ∧
      limbValue (Function.update m (a + len) c) a (len + 1) = limbValue m a len + (2 ^ 31) ^ len * c.toNat := by
  have hsame : ∀ i < len, Function.update m (a + len) c (a + i) = m (a + i) := by
    intro i hi
    exact Function.update_of_ne (by omega) _ _
  constructor
  · intro i hi
    by_cases hil : i = len
    · rw [hil, Function.update_self]
      exact hc
    · rw [hsame i (by omega)]
      exact h i (by omega)
  · rw [limbValue_succ, limbValue_congr hsame, Function.update_self, mul_comm]

/-- The sum has one more word. -/
theorem zintAddMulSmall_spec {s : UInt32} (hs : s.toNat < 2 ^ 31) (hxy : Aligned x y len) (hx : IsLimbs mem x len)
    (hy : IsLimbs mem y len) : IsLimbs (zintAddMulSmall mem x y len s) x (len + 1) ∧
      limbValue (zintAddMulSmall mem x y len s) x (len + 1) = limbValue mem x len + s.toNat * limbValue mem y len := by
  obtain ⟨hok, hcarry, hval⟩ := carryLoop_spec (zintAddMulSmallStep_exact hs) (.refl x len) hxy hx hy
    (show (0 : UInt32).toNat ≤ s.toNat from Nat.zero_le _) le_rfl
  obtain ⟨hlimbs, hpush⟩ := push_carry hok (lt_of_le_of_lt hcarry hs)
  refine ⟨hlimbs, ?_⟩
  have hsum : ∑ i ∈ Finset.range len,
    ((mem (x + i)).toNat + (s.toNat : ℤ) * (mem (y + i)).toNat) * ((2 ^ 31 : ℕ) : ℤ) ^ i =
      limbValue mem x len + s.toNat * limbValue mem y len := by
    unfold limbValue
    rw [← sum_mul_eq, cast_value, ← Finset.sum_add_distrib]
    exact Finset.sum_congr rfl fun i _ => add_mul _ _ _
  rw [hsum] at hval
  unfold zintAddMulSmall
  rw [hpush]
  zify
  push_cast at hval
  unfold limbValue at hval ⊢
  simpa using hval

/-- A product with its carry stored above the top word. -/
theorem zintMulSmall_push {s : UInt32} (hs : s.toNat < 2 ^ 31) (hx : IsLimbs mem x len) :
    IsLimbs (Function.update (zintMulSmall mem x len s).1 (x + len) (zintMulSmall mem x len s).2) x (len + 1) ∧
      limbValue (Function.update (zintMulSmall mem x len s).1 (x + len) (zintMulSmall mem x len s).2) x (len + 1) =
        s.toNat * limbValue mem x len := by
  obtain ⟨hok, hcarry, hval⟩ := carryLoop_spec (zintMulSmallStep_exact hs) (.refl x len) (.refl x len) hx hx
    (show (0 : UInt32).toNat ≤ s.toNat from Nat.zero_le _) le_rfl
  obtain ⟨hlimbs, hpush⟩ := push_carry hok (lt_of_le_of_lt hcarry hs)
  refine ⟨hlimbs, ?_⟩
  rw [sum_mul_eq] at hval
  unfold zintMulSmall
  rw [hpush]
  zify
  unfold limbValue
  simpa using hval

/-- One iteration of `zint_sub` that does subtract. -/
private theorem zintSubStep_exact : ExactStep (2 ^ 31) UInt32.toNat
    (fun c : UInt32 => -(c.toNat : ℤ)) (fun x => x.toNat < 2 ^ 31)
    (fun c => c.toNat ≤ 1) (zintSubStep (-1)) fun x y => (x.toNat : ℤ) - y.toNat := by
  intro x y c hx hy hc
  have hw : (x - y - c).toNat = (2 ^ 32 + x.toNat - y.toNat - c.toNat) % 2 ^ 32 := by
    rw [UInt32.toNat_sub, UInt32.toNat_sub]
    omega
  have hout : x ^^^ (((x - y - c) &&& 0x7FFFFFFF) ^^^ x) = (x - y - c) &&& 0x7FFFFFFF := by
    rw [UInt32.xor_comm ((x - y - c) &&& 0x7FFFFFFF), ← UInt32.xor_assoc, UInt32.xor_self, UInt32.zero_xor]
  have hlow : ((x - y - c) &&& 0x7FFFFFFF).toNat = (x - y - c).toNat % 2 ^ 31 := by
    rw [show (0x7FFFFFFF : UInt32) = limbMask from rfl, toNat_and_limbMask]
  have hshift : ((x - y - c) >>> 31).toNat = (x - y - c).toNat / 2 ^ 31 := by
    rw [UInt32.toNat_shiftRight, Nat.shiftRight_eq_div_pow]
    rfl
  simp only [zintSubStep, UInt32.and_neg_one, hout, hlow, hshift, hw]
  refine ⟨Nat.mod_lt _ (by omega), by omega, by omega⟩

private theorem zintSubStep_zero (x y c : UInt32) : (zintSubStep (-0) x y c).1 = x := by
  simp only [zintSubStep, UInt32.neg_zero, UInt32.and_zero, UInt32.xor_zero]

end Sums

/-! ### The representative of least absolute value -/

section NormZero

/-- The outcome of a comparison: -1, 0 or 1. -/
def IsCmp (r : UInt32) (a b : ℕ) : Prop := r = if a < b then -1 else if a = b then 0 else 1

theorem shift_31 (w : UInt32) : w >>> 31 = if w.toNat < 2 ^ 31 then 0 else 1 := by
  have hw := w.toNat_lt
  apply UInt32.toNat_inj.1
  rw [UInt32.toNat_shiftRight, Nat.shiftRight_eq_div_pow, show (31 : UInt32).toNat % 32 = 31 from rfl]
  split
  · rw [UInt32.toNat_zero]
    omega
  · rw [show (1 : UInt32).toNat = 1 from rfl]
    omega

/-- The comparison of two limbs. -/
private theorem isCmp_words {w x : UInt32} (hw : w.toNat < 2 ^ 31) (hx : x.toNat < 2 ^ 31) :
    IsCmp (((-(w - x)) >>> 31) ||| -((w - x) >>> 31)) w.toNat x.toNat := by
  have hsub : (w - x).toNat = (2 ^ 32 - x.toNat + w.toNat) % 2 ^ 32 := UInt32.toNat_sub _ _
  have hneg : (-(w - x)).toNat = (2 ^ 32 - (w - x).toNat) % 2 ^ 32 := UInt32.toNat_neg _
  unfold IsCmp
  rw [shift_31 (w - x), shift_31 (-(w - x))]
  rcases Nat.lt_trichotomy w.toNat x.toNat with hlt | heq | hgt
  · rw [if_pos hlt, if_pos (show (-(w - x)).toNat < 2 ^ 31 by omega), if_neg (show ¬ (w - x).toNat < 2 ^ 31 by omega)]
    rfl
  · rw [if_neg (show ¬ w.toNat < x.toNat by omega), if_pos heq, if_pos (show (-(w - x)).toNat < 2 ^ 31 by omega),
      if_pos (show (w - x).toNat < 2 ^ 31 by omega)]
    rfl
  · rw [if_neg (show ¬ w.toNat < x.toNat by omega), if_neg (show w.toNat ≠ x.toNat by omega),
      if_neg (show ¬ (-(w - x)).toNat < 2 ^ 31 by omega), if_pos (show (w - x).toNat < 2 ^ 31 by omega)]
    rfl

/-- The higher words decide a comparison, unless they are equal. -/
theorem IsCmp.step {r c : UInt32} {A B a b : ℕ} (hr : IsCmp r A B) (hc : IsCmp c a b) (ha : a < 2 ^ 31)
    (hb : b < 2 ^ 31) :
    IsCmp (r ||| (c &&& ((r &&& 1) - 1))) (a + 2 ^ 31 * A) (b + 2 ^ 31 * B) := by
  unfold IsCmp at hr hc ⊢
  rcases Nat.lt_trichotomy A B with hlt | heq | hgt
  · rw [if_pos hlt] at hr
    rw [if_pos (by omega), hr, show ((-1 : UInt32) &&& 1) - 1 = 0 from rfl, UInt32.and_zero, UInt32.or_zero]
  · rw [if_neg (by omega), if_pos heq] at hr
    rw [hr, show ((0 : UInt32) &&& 1) - 1 = -1 from rfl, UInt32.and_neg_one, UInt32.zero_or, hc, heq]
    simp only [Nat.add_lt_add_iff_right, Nat.add_right_cancel_iff]
  · rw [if_neg (by omega), if_neg (by omega)] at hr
    rw [if_neg (by omega), if_neg (by omega), hr, show ((1 : UInt32) &&& 1) - 1 = 0 from rfl, UInt32.and_zero,
      UInt32.or_zero]

/-- The comparison of half of `p` with `x`, after the words from `u` on. -/
private theorem foldr_zintNormZeroStep {mem : ℕ → UInt32} {x p u k : ℕ} (hx : IsLimbs mem (x + u) k)
    (hp : IsLimbs mem (p + u) k) :
    IsCmp ((List.range' u k).foldr (zintNormZeroStep mem x p) (0, 0)).1 (limbValue mem (p + u) k / 2)
      (limbValue mem (x + u) k) ∧
    ((List.range' u k).foldr (zintNormZeroStep mem x p) (0, 0)).2.toNat = limbValue mem (p + u) k % 2 := by
  induction k generalizing u with
  | zero => simp [IsCmp, limbValue, value]
  | succ k ih =>
    have hnext : ∀ {a : ℕ}, IsLimbs mem (a + u) (k + 1) → IsLimbs mem (a + (u + 1)) k := by
      intro a ha i hi
      have := ha (i + 1) (by omega)
      rwa [show a + u + (i + 1) = a + (u + 1) + i by ring] at this
    obtain ⟨h1, h2⟩ := ih (hnext hx) (hnext hp)
    rw [List.range'_succ, List.foldr_cons]
    generalize (List.range' (u + 1) k).foldr (zintNormZeroStep mem x p) (0, 0) = st at h1 h2 ⊢
    obtain ⟨r, bb⟩ := st
    have hx0 : (mem (x + u)).toNat < 2 ^ 31 := hx 0 (by omega)
    have hp0 : (mem (p + u)).toNat < 2 ^ 31 := hp 0 (by omega)
    have hhalf : (mem (p + u) >>> 1).toNat = (mem (p + u)).toNat / 2 := by
      rw [UInt32.toNat_shiftRight, Nat.shiftRight_eq_div_pow]
      rfl
    have hbb : bb.toNat < 2 := by
      simp only at h2
      omega
    have hword : (mem (p + u) >>> 1 ||| bb <<< 30).toNat = (mem (p + u)).toNat / 2 + 2 ^ 30 * bb.toNat := by
      rw [UInt32.toNat_or, hhalf, UInt32.toNat_shiftLeft, show (30 : UInt32).toNat % 32 = 30 from rfl, Nat.shiftLeft_eq,
        Nat.mod_eq_of_lt (by omega), Nat.or_comm, mul_comm bb.toNat, ← Nat.two_pow_add_eq_or_of_lt (by omega)]
      ring
    have hbit : (mem (p + u) &&& 1).toNat = (mem (p + u)).toNat % 2 := by
      rw [UInt32.toNat_and, show (1 : UInt32).toNat = 2 ^ 1 - 1 from rfl, Nat.and_two_pow_sub_one_eq_mod]
    have hw : (mem (p + u) >>> 1 ||| bb <<< 30).toNat < 2 ^ 31 := by omega
    have hstep := h1.step (isCmp_words hw hx0) hw hx0
    simp only at h2
    constructor
    · rw [limbValue_succ_low, limbValue_succ_low, add_assoc p u 1, add_assoc x u 1]
      simp only [zintNormZeroStep]
      rw [hword, h2] at hstep
      convert! hstep using 1
      omega
    · rw [limbValue_succ_low]
      simp only [zintNormZeroStep]
      omega

theorem zintNormZero_frame {mem : ℕ → UInt32} {x p len j : ℕ} (hj : j < x ∨ x + len ≤ j) :
    zintNormZero mem x p len j = mem j := carryLoop_frame x x p len mem 0 hj

private theorem zintSub_zero {mem : ℕ → UInt32} (a b len : ℕ) : (zintSub mem a b len 0).1 = mem := by
  unfold zintSub
  induction len with
  | zero => rfl
  | succ len ih =>
    rw [carryLoop_succ]
    unfold carryStep
    simp only
    rw [ih, zintSubStep_zero, Function.update_eq_self]

/-- A residue modulo `p` becomes its representative of least absolute value. -/
theorem zintNormZero_spec {mem : ℕ → UInt32} {x p len : ℕ} (hxp : Aligned x p len) (hx : IsLimbs mem x len)
    (hp : IsLimbs mem p len) {X : ℤ} (hX : 2 * |X| < limbValue mem p len)
    (hmod : (limbValue mem x len : ℤ) = X % limbValue mem p len) : IsSigned (zintNormZero mem x p len) x len X := by
  obtain ⟨P, hP⟩ : ∃ P, limbValue mem p len = P := ⟨_, rfl⟩
  obtain ⟨v, hv⟩ : ∃ v, limbValue mem x len = v := ⟨_, rfl⟩
  have hPlt := limbValue_lt hp
  have hcmp := (foldr_zintNormZeroStep (u := 0) (k := len) hx hp).1
  rw [add_zero, add_zero, hP, hv] at hcmp
  rw [hP] at hX hPlt
  rw [hP, hv] at hmod
  have hPz : (P : ℤ) < (2 ^ 31) ^ len := by exact_mod_cast hPlt
  obtain ⟨hneg, hpos⟩ := abs_lt.1 (show |X| < P by linarith [abs_nonneg X])
  unfold zintNormZero
  rcases le_or_gt 0 X with h0 | h0
  · rw [Int.emod_eq_of_lt h0 hpos] at hmod
    have habs := abs_of_nonneg h0
    have hctl : ((List.range' 0 len).foldr (zintNormZeroStep mem x p) (0, 0)).1 >>> 31 = 0 := by
      rw [hcmp, if_neg (by omega)]
      split <;> rfl
    simp only
    rw [hctl, zintSub_zero]
    refine ⟨hx, by linarith, ?_⟩
    rw [if_pos h0, hv, hmod]
  · have hemod : X % P = X + P := by
      rw [← Int.add_emod_right, Int.emod_eq_of_lt (by linarith) (by linarith)]
    have habs := abs_of_neg h0
    have hctl : ((List.range' 0 len).foldr (zintNormZeroStep mem x p) (0, 0)).1 >>> 31 = 1 := by
      rw [hcmp, if_pos (by omega)]
      rfl
    simp only
    rw [hctl]
    obtain ⟨hok, hcarry, hval⟩ := carryLoop_spec zintSubStep_exact (.refl x len) hxp hx hp
      (show (0 : UInt32).toNat ≤ 1 by decide) le_rfl
    rw [sum_sub_eq] at hval
    refine ⟨hok, by linarith, ?_⟩
    rw [if_neg (by omega)]
    unfold zintSub
    unfold limbValue at hv hP ⊢
    rw [hv, hP] at hval
    push_cast at hval
    have hnew : (value (2 ^ 31) UInt32.toNat (carryLoop (zintSubStep (-1)) x x p len mem 0).1 x len : ℤ) <
      (2 ^ 31) ^ len := by
      exact_mod_cast limbValue_lt hok
    generalize (carryLoop (zintSubStep (-1)) x x p len mem 0) = r at hval hcarry hnew ⊢
    have hone : (r.2.toNat : ℤ) = 1 := by
      rcases Nat.le_one_iff_eq_zero_or_eq_one.1 hcarry with hzero | hone
      · rw [hzero] at hval
        push_cast at hval
        omega
      · rw [hone, Nat.cast_one]
    rw [hone] at hval
    norm_num at hval ⊢
    linarith

end NormZero

end DfVrf.Crypto
