import DfVrf.Crypto.PrivateKey

/-!
# Key recovery in the C code (`vrfy.c`)

An Epervier signature `(s1, s2)` determines the public key `h = (c - s1) / s2`.  The signer adds a hint, the inverse of
the product of all entries of the transform of `s2`, which spares the verifier the 512 inversions.

* `hintEpervier_spec`: the hint is the inverse of the product.
* `verifyRecoverEpervier_iff`, `verifyRecoverEpervier_rep`: the recovery succeeds exactly for invertible `s2` and short
  signatures, and rebuilds the transform of the public key.
-/

namespace DfVrf.Crypto

open InPlace Negacyclic

/-- The reduction of a coefficient of `s1` or `s2` modulo `q`, before it is stored. -/
def reduceCoeff (z : Int16) : UInt32 :=
  let w := z.toInt32.toUInt32
  w + (Q &&& -(w >>> 31))

/-- `is_invertible`. -/
def isInvertible (s2 : List Int16) (logn : ℕ) : UInt32 :=
  let n := 1 <<< logn
  let tt := s2.map fun z => (reduceCoeff z).toUInt16
  let tt := mqNtt tt logn
  let r := (List.range n).foldl (fun r u => r ||| ((rd tt u).toUInt32 - 1)) 0
  (1 : UInt32) - (r >>> 31)

/-- `hint_epervier`. -/
def hintEpervier (s2 : List Int16) (logn : ℕ) : UInt16 :=
  let n := 1 <<< logn
  let s2Unsigned := s2.map fun z => (reduceCoeff z).toUInt16
  let s2Unsigned := mqNtt s2Unsigned logn
  let s2Unsigned := mqPolyTomonty s2Unsigned
  let hint := (List.range n).foldl
    (fun hint u => (mqMontymul hint.toUInt32 (rd s2Unsigned u).toUInt32).toUInt16) (1 : UInt16)
  (mqDiv12289 1 hint.toUInt32).toUInt16

/-- `verify_recover_epervier`: the flag and the array `h`. -/
def verifyRecoverEpervier (c0 : List UInt16) (s1 s2 : List Int16) (logn : ℕ) : UInt32 × List UInt16 :=
  let n := 1 <<< logn
  let tt := s2.map fun z => (reduceCoeff z).toUInt16
  let h := List.zipWith (fun c z => (mqSub c.toUInt32 (reduceCoeff z)).toUInt16) c0 s1
  let tt := mqNtt tt logn
  let h := mqNtt h logn
  -- the high bit of `r` is set if some entry is zero
  let r := (List.range n).foldl (fun r u => r ||| ((rd tt u).toUInt32 - 1)) 0
  let h := List.zipWith (fun x y => (mqDiv12289 x.toUInt32 y.toUInt32).toUInt16) h tt
  let r := ~~~r &&& -(if isShort s1 s2 logn then 1 else 0)
  (r >>> 31, h)

/-! ### The hint -/

theorem reduceCoeff_spec {z : Int16} (h1 : -12289 < z.toInt) (h2 : z.toInt < 12289) :
    Reduced (reduceCoeff z) ∧ toZq (reduceCoeff z) = ofInt16 z := by
  rw [← Int16.toInt_toInt32] at h1 h2
  obtain ⟨hred, hval⟩ := mqConvSmall_spec h1 h2
  rw [Int16.toInt_toInt32] at hval
  exact ⟨hred, hval⟩

private theorem map_reduceCoeff_eq (s2 : List Int16) :
    (s2.map fun z => (reduceCoeff z).toUInt16) = s2.map reduceS2 := rfl

private theorem reduced_toZq_one : Reduced (1 : UInt16).toUInt32 ∧ toZq (1 : UInt16).toUInt32 = 1 :=
  ⟨show (1 : UInt16).toUInt32.toNat < 12289 by decide, by decide⟩

/-- The Montgomery products of the entries of an array in Montgomery representation. -/
theorem foldl_mqMontymul_spec {n : ℕ} {a : List UInt16} {f : ℕ → Zq} (ha : Rep n a (fun e => f e * 65536)) {k : ℕ}
    (hk : k ≤ n) : Reduced ((List.range k).foldl
        (fun hint u => (mqMontymul hint.toUInt32 (rd a u).toUInt32).toUInt16) (1 : UInt16)).toUInt32 ∧
      toZq ((List.range k).foldl
        (fun hint u => (mqMontymul hint.toUInt32 (rd a u).toUInt32).toUInt16) (1 : UInt16)).toUInt32 =
        ∏ e ∈ Finset.range k, f e := by
  induction k with
  | zero => exact reduced_toZq_one
  | succ k ih =>
    obtain ⟨hred, hval⟩ := ih (by omega)
    obtain ⟨h1, h2⟩ := mqMontymul_of_monty hred (ha.ok_rd k (by omega)) (ha.val_rd k (by omega))
    rw [List.range_succ, List.foldl_append, List.foldl_cons, List.foldl_nil, Finset.prod_range_succ, ← hval]
    exact h1.store h2

/-- The hint is reduced, and the inverse of the product of the entries of the transform. -/
theorem hintEpervier_spec {logn : ℕ} (hl : logn ≤ 10) {s2 : List Int16} {s : ℕ → Zq} (hs : RepSigned (2 ^ logn) s2 s)
    (hne : ∀ e < 2 ^ logn, fwd twiddle logn logn s e ≠ 0) : Reduced (hintEpervier s2 logn).toUInt32 ∧
      toZq (hintEpervier s2 logn).toUInt32 * ∏ e ∈ Finset.range (2 ^ logn), fwd twiddle logn logn s e = 1 := by
  have := Fact.mk prime_q
  have ht := mqPolyTomonty_rep (mqNtt_rep hl (map_reduceS2_rep hs))
  obtain ⟨hred, hval⟩ := foldl_mqMontymul_spec ht (le_refl (2 ^ logn))
  have h0 : ∏ e ∈ Finset.range (2 ^ logn), fwd twiddle logn logn s e ≠ 0 :=
    Finset.prod_ne_zero_iff.2 fun e he => hne e (Finset.mem_range.1 he)
  rw [← hval] at h0 ⊢
  obtain ⟨hd, hdval⟩ := mqDiv12289_spec reduced_toZq_one.1 hred h0
  rw [reduced_toZq_one.2] at hdval
  rw [hintEpervier, map_reduceCoeff_eq, Nat.one_shiftLeft]
  obtain ⟨hstore, hstoreval⟩ := hd.store rfl
  exact ⟨hstore, by rw [← hdval, ← hstoreval]; rfl⟩

/-! ### The recovery -/

/-- The flags of the entries: the high bit is set if one of them is zero. -/
private theorem two_pow_31_le_foldl_or (a : List UInt16) (k : ℕ) :
    2 ^ 31 ≤ ((List.range k).foldl (fun r u => r ||| ((rd a u).toUInt32 - 1)) (0 : UInt32)).toNat ↔
      ∃ e < k, rd a e = 0 := by
  induction k with
  | zero => simp
  | succ k ih =>
    have hflag : 2 ^ 31 ≤ ((rd a k).toUInt32 - 1).toNat ↔ rd a k = 0 := by
      rw [← UInt16.toNat_inj, UInt32.toNat_sub, UInt16.toNat_toUInt32]
      have := (rd a k).toNat_lt
      have h1 : (1 : UInt32).toNat = 1 := rfl
      have h0 : (0 : UInt16).toNat = 0 := rfl
      omega
    rw [List.range_succ, List.foldl_append, List.foldl_cons, List.foldl_nil, two_pow_31_le_or, ih, hflag]
    constructor
    · rintro (⟨e, he, h⟩ | h)
      · exact ⟨e, by omega, h⟩
      · exact ⟨k, by omega, h⟩
    · rintro ⟨e, he, h⟩
      obtain he | rfl := Nat.lt_succ_iff_lt_or_eq.1 he
      · exact Or.inl ⟨e, he, h⟩
      · exact Or.inr h

/-- The result of the flags: one exactly if the high bit of `r` is clear and the signature is short. -/
theorem flag_eq_one_iff (r : UInt32) (short : Bool) :
    (~~~r &&& -(if short then 1 else 0)) >>> 31 = 1 ↔ ¬ 2 ^ 31 ≤ r.toNat ∧ short = true := by
  have hr := r.toNat_lt
  cases short with
  | false => simp
  | true =>
    have hmask : ~~~r &&& -1 = ~~~r := by simp
    have hnot : (~~~r).toNat = 4294967295 - r.toNat := UInt32.toNat_not r
    rw [if_pos rfl, hmask, ← UInt32.toNat_inj, UInt32.toNat_shiftRight, hnot, Nat.shiftRight_eq_div_pow]
    have h31 : 2 ^ ((31 : UInt32).toNat % 32) = 2147483648 := rfl
    have h1 : (1 : UInt32).toNat = 1 := rfl
    simp only [h31, h1, and_true]
    omega

/-- The recovery succeeds exactly if `s2` is invertible and the signature is short. -/
theorem verifyRecoverEpervier_iff {logn : ℕ} (hl : logn ≤ 10) (c0 : List UInt16) (s1 : List Int16) {s2 : List Int16}
    {s : ℕ → Zq} (hs : RepSigned (2 ^ logn) s2 s) : (verifyRecoverEpervier c0 s1 s2 logn).1 = 1 ↔
      (∀ e < 2 ^ logn, fwd twiddle logn logn s e ≠ 0) ∧
        ∑ u ∈ Finset.range (2 ^ logn), (sq (rd s1 u) + sq (rd s2 u)) ≤ (rd l2bound logn).toNat := by
  have ht := mqNtt_rep hl (map_reduceS2_rep hs)
  have hzero : (¬ ∃ e < 2 ^ logn, rd (mqNtt (s2.map reduceS2) logn) e = 0) ↔
      ∀ e < 2 ^ logn, fwd twiddle logn logn s e ≠ 0 := by
    simp only [not_exists, not_and]
    apply forall₂_congr
    intro e he
    rw [← ht.val_rd e he, not_iff_not]
    constructor
    · intro h
      rw [h]
      rfl
    · intro h
      exact eq_of_toZq (ht.ok_rd e he) (show (0 : UInt16).toUInt32.toNat < 12289 by decide) h
  rw [verifyRecoverEpervier, map_reduceCoeff_eq, Nat.one_shiftLeft]
  rw [flag_eq_one_iff, two_pow_31_le_foldl_or, isShort_iff, hzero]

/-- The recovery rebuilds the transform of the quotient `(c - s1) / s2`. -/
theorem verifyRecoverEpervier_rep {logn : ℕ} (hl : logn ≤ 10) {c0 : List UInt16} {s1 s2 : List Int16}
    {c t s h : ℕ → Zq} (hc : Rep (2 ^ logn) c0 c) (h1 : RepSigned (2 ^ logn) s1 t) (hs : RepSigned (2 ^ logn) s2 s)
    (hne : ∀ e < 2 ^ logn, fwd twiddle logn logn s e ≠ 0)
    (heq : ∀ e < 2 ^ logn, t e = c e - mulMod (2 ^ logn) s h e) :
    Rep (2 ^ logn) (verifyRecoverEpervier c0 s1 s2 logn).2 (fwd twiddle logn logn h) := by
  have hd : Rep (2 ^ logn) (List.zipWith (fun c z => (mqSub c.toUInt32 (reduceCoeff z)).toUInt16) c0 s1)
      (mulMod (2 ^ logn) s h) := by
    refine hc.zipWith h1 _ fun e he x z hx hz hxe hze => ?_
    obtain ⟨hred, hval⟩ := mqSub_spec hx (reduceCoeff_spec hz.1 hz.2).1
    rw [hxe, (reduceCoeff_spec hz.1 hz.2).2, hze, heq e he, sub_sub_cancel] at hval
    exact hred.store hval
  refine zipWith_mqDiv12289_rep ((mqNtt_rep hl hd).congr fun e he => ?_) (mqNtt_rep hl (map_reduceS2_rep hs)) hne
  rw [fwd_mulMod (isTable_twiddle hl) _ _ he, mul_comm]

end DfVrf.Crypto
