import DfVrf.Agreement.Verify
import DfVrf.Contracts.Epervier
import DfVrf.Crypto.Epervier

/-!
# Key recovery on chain and in the C code

The contract rebuilds the transform of `(c - s1) / s2` and returns its hash, the C code the transform itself.

* `recover_complete`: for a signature under the key `h` the contract returns the hash of the transform of `h`, which is
  the array that the C code rebuilds.
* `recover_sound_iff`: when an address that the contract returns is that of a short signature.
-/

namespace DfVrf

open InPlace Negacyclic Word Crypto Contracts

private theorem isInverse_iff_fwd (s t : ℕ → Zq) :
    IsInverse 512 s t ↔ ∀ i < 512, fwd twiddle 9 9 s i * fwd twiddle 9 9 t i = 1 :=
  isInverse_iff two_pow_mul_inv (isTable_twiddle (by omega : 9 ≤ 10)) (twiddle_inv (by omega)) s t

private theorem fwd_mulMod_twiddle (s t : ℕ → Zq) {i : ℕ} (hi : i < 512) :
    fwd twiddle 9 9 (mulMod 512 s t) i = fwd twiddle 9 9 s i * fwd twiddle 9 9 t i :=
  fwd_mulMod (isTable_twiddle (by omega : 9 ≤ 10)) s t hi

private theorem first_nist_rep {f : Lanes → Lanes} {fuel : ℕ} {salt transcript : List UInt8} {hashed : List Word}
    (hp : hashToPointNIST f fuel salt transcript = some hashed) : WordRep 512 hashed (wordPoly hashed) :=
  first_wordDraws_rep ((hashToPointNIST_iff f salt transcript hashed).1 ⟨fuel, hp⟩)

/-! ### Completeness -/

private theorem ofWord_wordOfUInt16 (y : UInt16) : ofWord (wordOfUInt16 y) = toZq y.toUInt32 := by
  have hlt := y.toNat_lt
  rw [toZq, UInt16.toNat_toUInt32, ofWord, wordOfUInt16, BitVec.toNat_ofNat, Nat.mod_eq_of_lt (by omega)]

private theorem s2Transform_eq_slotPoly (cs2 : List Word) {i : ℕ} (hi : i < 512) :
    s2Transform cs2 i = fwd twiddle 9 9 (slotPoly cs2) i := s2Transform_eq cs2 hi

/-- The words of an array of the C code. -/
private theorem map_wordOfUInt16_rep {a : List UInt16} {f : ℕ → Zq} (ha : Rep 512 a f) :
    WordRep 512 (a.map wordOfUInt16) f := by
  refine ha.map wordOfUInt16 fun e _ y hy hye => ⟨?_, (ofWord_wordOfUInt16 y).trans hye⟩
  have hlt := y.toNat_lt
  rw [Reduced, UInt16.toNat_toUInt32] at hy
  rwa [WordReduced, wordOfUInt16, BitVec.toNat_ofNat, Nat.mod_eq_of_lt (by omega)]

/-- On a short signature under the key `h`, with the hint of the C code, the contract returns the hash of the transform
of `h`; the recovery of the C code succeeds and rebuilds this transform. -/
theorem recover_complete {hashToPoint : List UInt8 → List UInt8 → Option (List Word)} (K : Keccak256)
    {transcript : List UInt8} (salt : ByteVec 40) {hashed : List Word}
    (hp : hashToPoint salt.1 transcript = some hashed) (hrep : WordRep 512 hashed (wordPoly hashed)) (h : PublicPoly)
    (s1 s2 : PackedPoly) (hne : ∀ e < 512, fwd twiddle 9 9 (slotPoly s2.words) e ≠ 0)
    (heq : ∀ e < 512, slotPoly s1.words e =
      wordPoly hashed e - mulMod 512 (slotPoly s2.words) (coeffPoly h.coeffs) e)
    (hnorm : ∑ e ∈ Finset.range 512, (normSq (slotPoly s1.words e) + normSq (slotPoly s2.words e)) ≤ 34034726) :
    recoverWith hashToPoint K transcript salt.1 s1.words s2.words
        (wordOfUInt16 (hintEpervier (centredCoeffs s2.words) 9)) =
      some (.ok (hashToAddress K (encodePacked ((mqNtt h.coeffs 9).map wordOfUInt16)))) ∧
    (verifyRecoverEpervier (pointCoeffs hashed) (centredCoeffs s1.words) (centredCoeffs s2.words) 9).1 = 1 ∧
    (verifyRecoverEpervier (pointCoeffs hashed) (centredCoeffs s1.words) (centredCoeffs s2.words) 9).2 =
      mqNtt h.coeffs 9 := by
  have h1 := centredCoeffs_rep s1
  have h2 := centredCoeffs_rep s2
  have h1s : RepSigned 512 (centredCoeffs s1.words) (slotPoly s1.words) := h1.mono fun z hz => ⟨by omega, by omega⟩
  have h2s : RepSigned 512 (centredCoeffs s2.words) (slotPoly s2.words) := h2.mono fun z hz => ⟨by omega, by omega⟩
  have hntt := mqNtt_rep (by omega : 9 ≤ 10) h.rep
  have hpow : 2 ^ 9 = 512 := rfl
  have hsub : ∀ e < 512, wordPoly hashed e - slotPoly s1.words e =
      mulMod 512 (slotPoly s2.words) (coeffPoly h.coeffs) e := by
    intro e he
    rw [heq e he, sub_sub_cancel]
  constructor
  · -- the hint is the inverse of the product
    have hhint : ofWord (wordOfUInt16 (hintEpervier (centredCoeffs s2.words) 9)) *
        ∏ e ∈ Finset.range 512, s2Transform s2.words e = 1 := by
      obtain ⟨-, hval⟩ := hintEpervier_spec (by omega : 9 ≤ 10) h2s hne
      rw [hpow] at hval
      rw [ofWord_wordOfUInt16, Finset.prod_congr rfl fun e he =>
        s2Transform_eq_slotPoly s2.words (Finset.mem_range.1 he)]
      exact hval
    have hrec : Recoverable hashToPoint transcript salt.1 s1.words s2.words hashed := by
      refine ⟨salt.2, s1.length, s2.length, ?_, hp⟩
      rw [BitVec.le_def, toNat_epervierNorm s1.reduced s2.reduced]
      refine le_trans (Finset.sum_le_sum_of_subset ?_) hnorm
      exact Finset.range_subset_range.2 (by omega)
    rw [hrec.eq, if_pos hhint]
    -- the transform of `c - s1` is that of `s2 * h`
    have hkey := recoveredKey_rep s1.words hrep hhint (g := fwd twiddle 9 9 (coeffPoly h.coeffs)) ?_
    · rw [Represents.unique (fun _ _ => WordReduced.eq_of_ofWord) hkey (map_wordOfUInt16_rep hntt)]
    · intro e he
      rw [s2Transform_eq_slotPoly s2.words he]
      rw [← fwd_mulMod_twiddle _ _ he]
      apply fwd_congr (le_refl 9) _ he
      intro e he
      rw [ofWord_q_sub (le_of_lt (s1.reduced e he)), ← sub_eq_add_neg]
      exact hsub e he
  · have hflag := verifyRecoverEpervier_iff (by omega : 9 ≤ 10) (pointCoeffs hashed) (centredCoeffs s1.words) h2s
    rw [← hpow] at heq
    have harr := verifyRecoverEpervier_rep (by omega : 9 ≤ 10) (pointCoeffs_rep hrep) h1s h2s hne heq
    have harray := Rep.unique harr hntt
    refine ⟨hflag.2 ⟨hne, ?_⟩, harray⟩
    refine le_trans (le_of_eq ?_) hnorm
    apply Finset.sum_congr rfl
    intro e he
    have he := Finset.mem_range.1 he
    rw [sq_eq_normSq (h1.ok_rd e he), sq_eq_normSq (h2.ok_rd e he), h1.val_rd e he, h2.val_rd e he]

/-- The polynomial `1`. -/
def onePoly : PackedPoly where
  words := 1 :: List.replicate 31 0
  length := by simp
  reduced := by
    have h : ∀ e < 512, (slots (1 :: List.replicate 31 0) e).toNat < 12289 := by decide +kernel
    exact h

private theorem slots_onePoly : ∀ e < 512, slots onePoly.words e = if e = 0 then 1 else 0 := by decide +kernel

private theorem slotPoly_onePoly {e : ℕ} (he : e < 512) : slotPoly onePoly.words e = if e = 0 then 1 else 0 := by
  rw [slotPoly, slots_onePoly e he]
  split
  · exact ofWord_one
  · rfl

private theorem fwd_onePoly {e : ℕ} (he : e < 512) : fwd twiddle 9 9 (slotPoly onePoly.words) e = 1 := by
  rw [fwd_congr (le_refl 9) (fun e he => slotPoly_onePoly he) he]
  exact fwd_one (isTable_twiddle (by omega)) he

private theorem normSq_onePoly_le {e : ℕ} (he : e < 512) : normSq (slotPoly onePoly.words e) ≤ 1 := by
  rw [slotPoly_onePoly he]
  split <;> decide

private theorem sum_normSq_add_onePoly_le {s1 : List Word} {k : ℕ} (hk : k ≤ 512)
    (h : ∀ e < k, normSq (slotPoly s1 e) ≤ 1) :
    ∑ e ∈ Finset.range k, (normSq (slotPoly s1 e) + normSq (slotPoly onePoly.words e)) ≤ 34034726 := by
  have hle := Finset.sum_le_card_nsmul (Finset.range k)
    (fun e => normSq (slotPoly s1 e) + normSq (slotPoly onePoly.words e)) 2 fun e he => ?_
  · rw [Finset.card_range, smul_eq_mul] at hle
    omega
  · have he := Finset.mem_range.1 he
    have hone := normSq_onePoly_le (lt_of_lt_of_le he hk)
    have hs1 := h e he
    show normSq (slotPoly s1 e) + normSq (slotPoly onePoly.words e) ≤ 2
    omega

/-- The product with the polynomial `1`. -/
theorem mulMod_onePoly (c : ℕ → Zq) {e : ℕ} (he : e < 512) : mulMod 512 (slotPoly onePoly.words) c e = c e := by
  refine eq_of_fwd_twiddle_eq (fun i hi => ?_) he
  rw [fwd_mulMod_twiddle _ _ hi, fwd_onePoly hi, one_mul]

/-- The polynomial `-1`. -/
def minusOnePoly : PublicPoly where
  coeffs := 12288 :: List.replicate 511 0
  length := by rw [List.length_cons, List.length_replicate]
  reduced y hy := by
    rcases List.mem_cons.1 hy with rfl | hy
    · decide
    · rw [List.eq_of_mem_replicate hy]
      decide

private theorem coeffPoly_minusOnePoly (e : ℕ) : coeffPoly minusOnePoly.coeffs e = if e = 0 then -1 else 0 := by
  cases e with
  | zero => decide
  | succ e =>
    have h : rd minusOnePoly.coeffs (e + 1) = 0 := by
      change rd (List.replicate 511 (0 : UInt16)) e = 0
      rw [rd, List.getD_eq_getElem?_getD]
      exact List.getElem?_getD_replicate_default_eq 0 511 e
    rw [coeffPoly, h, if_neg (Nat.succ_ne_zero e)]
    rfl

/-- The signature `(1, 1)` under the key `-1`, for the zero challenge. -/
theorem recover_complete_one : ∃ fuel,
    recover zeroPerm fuel zeroHash (List.replicate 64 1) (List.replicate 40 7) onePoly.words onePoly.words
        (wordOfUInt16 (hintEpervier (centredCoeffs onePoly.words) 9)) =
      some (.ok (hashToAddress zeroHash (encodePacked ((mqNtt minusOnePoly.coeffs 9).map wordOfUInt16)))) ∧
    (verifyRecoverEpervier (pointCoeffs (List.replicate 512 0)) (centredCoeffs onePoly.words)
      (centredCoeffs onePoly.words) 9).1 = 1 ∧
    (verifyRecoverEpervier (pointCoeffs (List.replicate 512 0)) (centredCoeffs onePoly.words)
      (centredCoeffs onePoly.words) 9).2 = mqNtt minusOnePoly.coeffs 9 := by
  obtain ⟨fuel, hp⟩ := hashToPointNIST_zeroPerm (List.replicate 40 7) (List.replicate 64 1)
  refine ⟨fuel, recover_complete zeroHash ⟨List.replicate 40 7, List.length_replicate⟩ hp (first_nist_rep hp)
    minusOnePoly onePoly onePoly (fun e he => ?_) (fun e he => ?_)
    (sum_normSq_add_onePoly_le le_rfl fun e he => normSq_onePoly_le he)⟩
  · rw [fwd_onePoly he]
    exact one_ne_zero
  · rw [mulMod_onePoly _ he, wordPoly_replicate_zero he, slotPoly_onePoly he, coeffPoly_minusOnePoly]
    split
    · rw [zero_sub, neg_neg]
    · rw [sub_zero]

/-! ### Soundness -/

/-- The transform of a polynomial as an array of words. -/
def nttWords (g : ℕ → Zq) : List Word := (List.range 512).map fun e => BitVec.ofNat 256 (fwd twiddle 9 9 g e).val

private theorem nttWords_rep (g : ℕ → Zq) : WordRep 512 (nttWords g) (fwd twiddle 9 9 g) := by
  have hrd : ∀ e < 512, (rd (nttWords g) e).toNat = (fwd twiddle 9 9 g e).val := by
    intro e he
    have hlt := ZMod.val_lt (fwd twiddle 9 9 g e)
    rw [nttWords, rd_map_range _ he, BitVec.toNat_ofNat, Nat.mod_eq_of_lt (by omega)]
  refine ⟨by rw [nttWords, List.length_map, List.length_range], fun e he => ?_, fun e he => ?_⟩
  · rw [WordReduced, hrd e he]
    exact ZMod.val_lt _
  · rw [ofWord, hrd e he, ZMod.natCast_zmod_val]

/-- `addr` is the address of the key `(c - s1) / s2` of a short signature. -/
def IsAddressOf (K : Keccak256) (c s1 s2 : ℕ → Zq) (addr : BitVec 160) : Prop :=
  ∃ t, IsInverse 512 s2 t ∧ ∑ e ∈ Finset.range 512, (normSq (s1 e) + normSq (s2 e)) ≤ 34034726 ∧
    addr = hashToAddress K (encodePacked (nttWords (mulMod 512 (fun e => c e - s1 e) t)))

/-- What the subtraction `q - s1` adds to a slot above `q`. -/
def wrapPoly (cs1 : List Word) (e : ℕ) : Zq := if (slots cs1 e).toNat ≤ 12289 then 0 else 2 ^ 256

/-- Two different arrays with the same address. -/
def Collides (K : Keccak256) (a b : List Word) : Prop :=
  a ≠ b ∧ hashToAddress K (encodePacked a) = hashToAddress K (encodePacked b)

private theorem ofWord_q_sub_slots (cs1 : List Word) (e : ℕ) :
    ofWord (q - slots cs1 e) = wrapPoly cs1 e - slotPoly cs1 e := by
  rw [wrapPoly, slotPoly]
  by_cases h : (slots cs1 e).toNat ≤ 12289
  · rw [if_pos h, ofWord_q_sub h, zero_sub]
  · have hlt := (slots cs1 e).isLt
    have hval : (q - slots cs1 e).toNat + (slots cs1 e).toNat = 2 ^ 256 + 12289 := by
      have hq : q.toNat = 12289 := rfl
      rw [BitVec.toNat_sub, hq]
      omega
    have hq : ((12289 : ℕ) : Zq) = 0 := ZMod.natCast_self 12289
    rw [if_neg h, eq_sub_iff_add_eq, ofWord, ofWord, ← Nat.cast_add, hval, Nat.cast_add, hq, add_zero, Nat.cast_pow,
      Nat.cast_ofNat]

/-- The address that the contract returns for the right hint. -/
private theorem recoverWith_eq_address {hashToPoint : List UInt8 → List UInt8 → Option (List Word)} {K : Keccak256}
    {transcript salt : List UInt8} {cs1 cs2 hashed : List Word} {hint : Word}
    (hrep : WordRep 512 hashed (wordPoly hashed)) (hr : Recoverable hashToPoint transcript salt cs1 cs2 hashed)
    (h1 : ofWord hint * ∏ i ∈ Finset.range 512, s2Transform cs2 i = 1) :
    ∃ t, IsInverse 512 (slotPoly cs2) t ∧ recoverWith hashToPoint K transcript salt cs1 cs2 hint =
      some (.ok (hashToAddress K (encodePacked (nttWords
        (mulMod 512 (fun e => wordPoly hashed e + wrapPoly cs1 e - slotPoly cs1 e) t))))) := by
  -- the inverse of `s2`, from the inverses of its transform
  obtain ⟨t, ht⟩ := exists_fwd_eq two_pow_mul_inv (twiddle_inv (by omega : 9 ≤ 10))
    (fun e => ofWord (rd (s2InverseNtt (nttfw (nttExpand cs2)) hint) e))
  have hinv : ∀ e < 512, fwd twiddle 9 9 (slotPoly cs2) e * fwd twiddle 9 9 t e = 1 := by
    intro e he
    rw [ht e he, mul_comm, ← s2Transform_eq_slotPoly cs2 he]
    exact (s2InverseNtt_spec (nttfw (nttExpand cs2)) hint he).2.trans h1
  refine ⟨t, (isInverse_iff_fwd _ _).2 hinv, ?_⟩
  rw [hr.eq, if_pos h1]
  have hkey := recoveredKey_rep cs1 hrep h1 (g := fwd twiddle 9 9
    (mulMod 512 (fun e => wordPoly hashed e + wrapPoly cs1 e - slotPoly cs1 e) t)) ?_
  · rw [Represents.unique (fun _ _ => WordReduced.eq_of_ofWord) hkey (nttWords_rep _)]
  · intro e he
    rw [s2Transform_eq_slotPoly cs2 he, fwd_mulMod_twiddle _ _ he, mul_left_comm, hinv e he, mul_one]
    apply fwd_congr (le_refl 9) _ he
    intro e he
    rw [ofWord_q_sub_slots, add_sub_assoc]

/-- Different numerators with the same invertible denominator have different transforms. -/
private theorem nttWords_mulMod_injective {s t d d' : ℕ → Zq} (hinv : IsInverse 512 s t)
    (h : nttWords (mulMod 512 d t) = nttWords (mulMod 512 d' t)) : ∀ e < 512, d e = d' e := by
  have hst := (isInverse_iff_fwd s t).1 hinv
  intro e he
  refine eq_of_fwd_twiddle_eq (fun i hi => ?_) he
  have hval : fwd twiddle 9 9 (mulMod 512 d t) i = fwd twiddle 9 9 (mulMod 512 d' t) i := by
    rw [← (nttWords_rep (mulMod 512 d t)).val_rd i hi, h, (nttWords_rep (mulMod 512 d' t)).val_rd i hi]
  rw [fwd_mulMod_twiddle _ _ hi, fwd_mulMod_twiddle _ _ hi] at hval
  linear_combination fwd twiddle 9 9 s i * hval - (fwd twiddle 9 9 d i - fwd twiddle 9 9 d' i) * hst i hi

/-- Modulo `X ^ 512 + 1` inverses are unique. -/
private theorem mulMod_inverse_unique {s t t' : ℕ → Zq} (ht : IsInverse 512 s t) (ht' : IsInverse 512 s t')
    (d : ℕ → Zq) :
    mulMod 512 d t = mulMod 512 d t' := by
  have hst := (isInverse_iff_fwd s t).1 ht
  have hst' := (isInverse_iff_fwd s t').1 ht'
  refine mulMod_congr (fun _ _ => rfl) fun e he => ?_
  refine eq_of_fwd_twiddle_eq (fun i hi => ?_) he
  linear_combination fwd twiddle 9 9 t' i * hst i hi - fwd twiddle 9 9 t i * hst' i hi

/-- What the contract returns is the address of a short signature exactly if the squares that the norm loop leaves out
keep the norm within the bound, and no slot of `s1` is above `q`, unless two arrays have the same address. -/
theorem recover_sound_iff (f : Lanes → Lanes) (fuel : ℕ) (K : Keccak256) (transcript salt : List UInt8)
    (cs1 cs2 : List Word) (hint : Word) :
    (∀ hashed addr, hashToPointNIST f fuel salt transcript = some hashed →
      recover f fuel K transcript salt cs1 cs2 hint = some (.ok addr) →
        IsAddressOf K (wordPoly hashed) (slotPoly cs1) (slotPoly cs2) addr) ↔
    ∀ hashed, Recoverable (hashToPointNIST f fuel) transcript salt cs1 cs2 hashed →
      ofWord hint * ∏ i ∈ Finset.range 512, s2Transform cs2 i = 1 →
        ∑ e ∈ Finset.range 512, (normSq (slotPoly cs1 e) + normSq (slotPoly cs2 e)) ≤ 34034726 ∧
        ((∀ e < 512, (slots cs1 e).toNat ≤ 12289) ∨ ∃ t, IsInverse 512 (slotPoly cs2) t ∧ Collides K
          (nttWords (mulMod 512 (fun e => wordPoly hashed e + wrapPoly cs1 e - slotPoly cs1 e) t))
          (nttWords (mulMod 512 (fun e => wordPoly hashed e - slotPoly cs1 e) t))) := by
  constructor
  · intro h hashed hr h1
    obtain ⟨t, ht, heq⟩ := recoverWith_eq_address (K := K) (first_nist_rep hr.hashed) hr h1
    obtain ⟨t', ht', hnorm, haddr⟩ := h hashed _ hr.hashed heq
    rw [mulMod_inverse_unique ht' ht] at haddr
    refine ⟨hnorm, ?_⟩
    by_cases hne : nttWords (mulMod 512 (fun e => wordPoly hashed e + wrapPoly cs1 e - slotPoly cs1 e) t) =
        nttWords (mulMod 512 (fun e => wordPoly hashed e - slotPoly cs1 e) t)
    · left
      intro e he
      have hwrap := nttWords_mulMod_injective ht hne e he
      by_contra hlt
      rw [wrapPoly, if_neg hlt] at hwrap
      have h0 : (2 : Zq) ^ 256 = 0 := by linear_combination hwrap
      have h2 : (2 : Zq) ≠ 0 := by decide
      have := Fact.mk prime_q
      exact pow_ne_zero 256 h2 h0
    · exact Or.inr ⟨t, ht, hne, haddr⟩
  · intro h hashed addr hp hrec
    obtain ⟨hashed', hr⟩ := exists_recoverable hrec (by simp)
    obtain rfl : hashed' = hashed := Option.some.inj (hr.hashed.symm.trans hp)
    by_cases h1 : ofWord hint * ∏ i ∈ Finset.range 512, s2Transform cs2 i = 1
    swap
    · rw [recover, hr.eq, if_neg h1] at hrec
      simp at hrec
    obtain ⟨t, ht, heq⟩ := recoverWith_eq_address (K := K) (first_nist_rep hr.hashed) hr h1
    rw [recover, heq] at hrec
    obtain rfl := Except.ok.inj (Option.some.inj hrec)
    obtain ⟨hnorm, hslots | ⟨t', ht', -, hcol⟩⟩ := h hashed' hr h1
    · refine ⟨t, ht, hnorm, ?_⟩
      have hd : ∀ e < 512, wordPoly hashed' e + wrapPoly cs1 e - slotPoly cs1 e =
          wordPoly hashed' e - slotPoly cs1 e := by
        intro e he
        rw [wrapPoly, if_pos (hslots e he), add_zero]
      rw [mulMod_congr hd fun _ _ => rfl]
    · refine ⟨t', ht', hnorm, ?_⟩
      rw [mulMod_inverse_unique ht ht', hcol]

/-- The polynomial `6144 * X ^ 511`. -/
def lastPoly : PackedPoly where
  words := List.replicate 31 0 ++ [6144 <<< 240]
  length := by simp
  reduced := by
    have h : ∀ e < 512, (slots (List.replicate 31 0 ++ [6144 <<< 240]) e).toNat < 12289 := by decide +kernel
    exact h

private theorem slots_lastPoly : ∀ e < 512, slots lastPoly.words e = if e = 511 then 6144 else 0 := by decide +kernel

/-- For the zero challenge the contract returns an address for `s1 = 6144 * X ^ 511` and `s2 = 1`, whose norm exceeds
the bound. -/
theorem recover_accepts_lastPoly : ∃ fuel addr,
    hashToPointNIST zeroPerm fuel (List.replicate 40 7) (List.replicate 64 1) = some (List.replicate 512 0) ∧
    recover zeroPerm fuel zeroHash (List.replicate 64 1) (List.replicate 40 7) lastPoly.words onePoly.words 1 =
      some (.ok addr) ∧
    ¬ IsAddressOf zeroHash (wordPoly (List.replicate 512 0)) (slotPoly lastPoly.words) (slotPoly onePoly.words)
      addr := by
  obtain ⟨fuel, hp⟩ := hashToPointNIST_zeroPerm (List.replicate 40 7) (List.replicate 64 1)
  have hlow : ∀ e < 511, normSq (slotPoly lastPoly.words e) ≤ 1 := by
    intro e he
    rw [slotPoly, slots_lastPoly e (by omega), if_neg (by omega)]
    decide
  have hrec : Recoverable (hashToPointNIST zeroPerm fuel) (List.replicate 64 1) (List.replicate 40 7) lastPoly.words
      onePoly.words (List.replicate 512 0) := by
    refine ⟨List.length_replicate, lastPoly.length, onePoly.length, ?_, hp⟩
    rw [BitVec.le_def, toNat_epervierNorm lastPoly.reduced onePoly.reduced]
    exact sum_normSq_add_onePoly_le (by omega) hlow
  have hhint : ofWord 1 * ∏ i ∈ Finset.range 512, s2Transform onePoly.words i = 1 := by
    rw [ofWord_one, one_mul]
    apply Finset.prod_eq_one
    intro e he
    have he := Finset.mem_range.1 he
    rw [s2Transform_eq_slotPoly onePoly.words he, fwd_onePoly he]
  obtain ⟨t, -, heq⟩ := recoverWith_eq_address (K := zeroHash) (first_nist_rep hp) hrec hhint
  refine ⟨fuel, _, hp, heq, ?_⟩
  rintro ⟨-, -, hnorm, -⟩
  have hlast : normSq (slotPoly lastPoly.words 511) = 37748736 := by
    rw [slotPoly, slots_lastPoly 511 (by omega), if_pos rfl]
    decide +kernel
  have hle := Finset.single_le_sum
    (f := fun e => normSq (slotPoly lastPoly.words e) + normSq (slotPoly onePoly.words e))
    (fun _ _ => Nat.zero_le _) (Finset.mem_range.2 (by omega : 511 < 512))
  have hle := le_trans hle hnorm
  rw [hlast] at hle
  omega

end DfVrf
