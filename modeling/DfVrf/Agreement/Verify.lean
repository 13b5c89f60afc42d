import DfVrf.Agreement.HashToPoint
import DfVrf.Contracts.VrfFalcon
import DfVrf.Crypto.Deterministic
import DfVrf.Go.Packing

/-!
# The on-chain verifier and the C verifier

The C code compares the squares of all coefficients of `(c - s2 * h, s2)` with the bound, the contract those of
the first 511 coefficients of `c - s2 * h`, and strictly.  So the two agree except where the left out squares
matter (`vrfFalconEvm_sound_iff`) and at one point of the bound (`vrfFalconEvm_complete_iff`).
-/

namespace DfVrf

open InPlace Negacyclic Word Crypto Contracts Go

/-! ### The polynomials of the two verifiers -/

/-- The polynomial of an array with one coefficient a word. -/
def wordPoly (a : List Word) (e : ℕ) : Zq := ofWord (rd a e)

/-- The polynomial of an array with 16 coefficients a word. -/
def slotPoly (a : List Word) (e : ℕ) : Zq := ofWord (slots a e)

/-- The polynomial of an array of the C code. -/
def coeffPoly (a : List UInt16) (e : ℕ) : Zq := toZq (rd a e).toUInt32

/-- 32 words whose slots are below `q`. -/
structure PackedPoly where
  words : List Word
  length : words.length = 32
  reduced : ∀ e < 512, WordReduced (slots words e)

/-- 512 coefficients below `q`. -/
structure PublicPoly where
  coeffs : List UInt16
  length : coeffs.length = 512
  reduced : ∀ y ∈ coeffs, y.toNat < 12289

/-- The hashed point as an array of the C code. -/
def pointCoeffs (hashed : List Word) : List UInt16 := hashed.map fun w => UInt16.ofNat w.toNat

/-- The centred representative of a slot. -/
def centredSlot (w : Word) : Int16 := Int16.ofInt (if w.toNat ≤ 6144 then w.toNat else (w.toNat : ℤ) - 12289)

/-- The packed polynomial as an array of centred coefficients. -/
def centredCoeffs (a : List Word) : List Int16 := (List.range 512).map fun e => centredSlot (slots a e)

theorem PublicPoly.rep (h : PublicPoly) : Rep 512 h.coeffs (coeffPoly h.coeffs) :=
  Represents.of_forall_mem h.length fun y hy => by
    rw [Reduced, UInt16.toNat_toUInt32]
    exact h.reduced y hy

private theorem toInt_centredSlot {w : Word} (hw : WordReduced w) :
    (centredSlot w).toInt = if w.toNat ≤ 6144 then (w.toNat : ℤ) else (w.toNat : ℤ) - 12289 := by
  unfold WordReduced at hw
  rw [centredSlot, Int16.toInt_ofInt, show Int16.size = 2 ^ 16 from rfl]
  apply Int.bmod_eq_of_le <;> split <;> omega

theorem centredCoeffs_rep (s2 : PackedPoly) : RepCentred 512 (centredCoeffs s2.words) (slotPoly s2.words) := by
  have hq : ((12289 : ℤ) : Zq) = 0 := by decide
  have hslot : ∀ e < 512, rd (centredCoeffs s2.words) e = centredSlot (slots s2.words e) := by
    intro e he
    rw [centredCoeffs, rd_map_range _ he]
  refine ⟨by simp [centredCoeffs], ?_, ?_⟩
  · intro e he
    have hw := s2.reduced e he
    rw [hslot e he, toInt_centredSlot hw]
    unfold WordReduced at hw
    split <;> omega
  · intro e he
    rw [hslot e he, ofInt16, toInt_centredSlot (s2.reduced e he), slotPoly, ofWord]
    split
    · rw [Int.cast_natCast]
    · rw [Int.cast_sub, Int.cast_natCast, hq, sub_zero]

/-! ### The hashed point -/

theorem first_wordDraws_rep {stream : ℕ → UInt8} {xs : List Word} (h : Sampling.First (wordDraws stream) 512 xs) :
    WordRep 512 xs (wordPoly xs) := by
  refine Represents.of_forall_mem h.length fun x hx => ?_
  obtain ⟨j, hj⟩ := h.mem hx
  rw [wordDraws] at hj
  obtain ⟨c, hc, rfl⟩ := Option.map_eq_some_iff.1 hj
  have hlt := draws_lt hc
  rw [WordReduced, BitVec.toNat_ofNat]
  omega

private theorem hashToPointEVM_rep {K : Keccak256} {fuel : ℕ} {salt transcript : List UInt8} {hashed : List Word}
    (hp : hashToPointEVM K fuel salt transcript = some hashed) : WordRep 512 hashed (wordPoly hashed) :=
  first_wordDraws_rep ((hashToPointEVM_iff K salt transcript hashed).1 ⟨fuel, hp⟩)

/-- The hashed point in the C code represents the same polynomial. -/
theorem pointCoeffs_rep {hashed : List Word} (h : WordRep 512 hashed (wordPoly hashed)) :
    Rep 512 (pointCoeffs hashed) (wordPoly hashed) := by
  refine h.map _ fun e _ w hw hwe => ?_
  unfold WordReduced at hw
  have hval : (UInt16.ofNat w.toNat).toUInt32.toNat = w.toNat := by
    rw [UInt16.toNat_toUInt32, UInt16.toNat_ofNat']
    exact Nat.mod_eq_of_lt (by omega)
  refine ⟨by rw [Reduced, hval]; exact hw, ?_⟩
  rw [toZq, hval]
  exact hwe

/-! ### The packed transform of the public key -/

/-- The transform of a public key, as the C code computes it. -/
def PublicPoly.ntt (h : PublicPoly) : PublicPoly where
  coeffs := mqNtt h.coeffs 9
  length := (mqNtt_rep (by omega : 9 ≤ 10) h.rep).length
  reduced y hy := by
    have hrep := mqNtt_rep (by omega : 9 ≤ 10) h.rep
    obtain ⟨i, hi, rfl⟩ := List.mem_iff_getElem.1 hy
    have hred := hrep.ok_rd i (by rwa [hrep.length] at hi)
    rwa [Reduced, UInt16.toNat_toUInt32, rd_eq_getElem hi] at hred

theorem PublicPoly.coeffs_ntt (h : PublicPoly) : h.ntt.coeffs = mqNtt h.coeffs 9 := by
  rw [PublicPoly.ntt]

theorem length_packUint16Coeffs (h : PublicPoly) : (packUint16Coeffs h.coeffs).length = 32 := by
  rw [packUint16Coeffs]
  apply length_packInt16Coeffs
  rw [List.length_map]
  exact h.length

/-- The packed coefficients are reduced and represent the polynomial. -/
theorem slots_packUint16Coeffs_rep (h : PublicPoly) {e : ℕ} (he : e < 512) :
    WordReduced (slots (packUint16Coeffs h.coeffs) e) ∧
      ofWord (slots (packUint16Coeffs h.coeffs) e) = coeffPoly h.coeffs e := by
  have hs := slots_packUint16Coeffs h.length h.reduced he
  constructor
  · rw [WordReduced, hs]
    exact h.reduced _ (mem_rd (by rwa [h.length]))
  · rw [ofWord, hs, coeffPoly, toZq, UInt16.toNat_toUInt32]

theorem slots_packedKey (h : PublicPoly) {e : ℕ} (he : e < 512) :
    ofWord (slots (packUint16Coeffs (mqNtt h.coeffs 9)) e) = fwd twiddle 9 9 (coeffPoly h.coeffs) e := by
  have hval := (mqNtt_rep (by omega : 9 ≤ 10) h.rep).val_rd e he
  rw [← h.coeffs_ntt] at hval ⊢
  rw [(slots_packUint16Coeffs_rep h.ntt he).2, ← hval, coeffPoly]

theorem length_packedKey (h : PublicPoly) : (packUint16Coeffs (mqNtt h.coeffs 9)).length = 32 := by
  rw [← h.coeffs_ntt]
  exact length_packUint16Coeffs h.ntt

/-! ### Soundness -/

/-- The part of the squared norm of `c - s * h` that the contract compares with the bound. -/
noncomputable def visibleNorm (c s h : ℕ → Zq) : ℕ :=
  ∑ u ∈ Finset.range 511, normSq (c u - mulMod 512 s h u)

/-- The part that it leaves out: the last coefficient of `c - s * h` and the coefficients of `s`. -/
noncomputable def omittedNorm (c s h : ℕ → Zq) : ℕ :=
  normSq (c 511 - mulMod 512 s h 511) + ∑ u ∈ Finset.range 512, normSq (s u)

private theorem sigNorm_eq_add (c s h : ℕ → Zq) : sigNorm 512 c s h = visibleNorm c s h + omittedNorm c s h := by
  rw [sigNorm, Finset.sum_range_succ, visibleNorm, omittedNorm, Nat.add_assoc]

/-- Either contract accepts a proof exactly when the part of the norm that it sees is below the bound. -/
theorem verifyWith_iff {hashToPoint : List UInt8 → List UInt8 → Option (List Word)} {transcript : List UInt8}
    (salt : ByteVec 40) {hashed : List Word} (hp : hashToPoint salt.1 transcript = some hashed)
    (hrep : WordRep 512 hashed (wordPoly hashed)) {s2 : List Word} (hs : s2.length = 32) (h : PublicPoly) (fmp : ℕ) :
    verifyWith hashToPoint fmp transcript salt.1 s2 (packUint16Coeffs (mqNtt h.coeffs 9)) = some (.ok true) ↔
      visibleNorm (wordPoly hashed) (slotPoly s2) (coeffPoly h.coeffs) < 34034726 := by
  have hcore := falconCore_iff fmp hs (fun e he => slots_packedKey h he) hrep
  rw [verifyWith_eq_true]
  constructor
  · rintro ⟨_, _, _, hashed', hp', hacc⟩
    obtain rfl : hashed = hashed' := Option.some.inj (hp.symm.trans hp')
    exact hcore.1 hacc
  · intro hlt
    exact ⟨salt.2, hs, length_packedKey h, hashed, hp, hcore.2 hlt⟩

theorem vrfFalconEvmVerify_iff {K : Keccak256} {fuel : ℕ} {transcript : List UInt8} (salt : ByteVec 40)
    {hashed : List Word} (hp : hashToPointEVM K fuel salt.1 transcript = some hashed) {s2 : List Word}
    (hs : s2.length = 32) (h : PublicPoly) (fmp : ℕ) :
    vrfFalconEvmVerify K fuel fmp transcript salt.1 s2 (packUint16Coeffs (mqNtt h.coeffs 9)) = some (.ok true) ↔
      visibleNorm (wordPoly hashed) (slotPoly s2) (coeffPoly h.coeffs) < 34034726 :=
  verifyWith_iff salt hp (hashToPointEVM_rep hp) hs h fmp

/-- The zero polynomial. -/
def zeroPoly : PublicPoly where
  coeffs := List.replicate 512 0
  length := List.length_replicate
  reduced y hy := by
    rw [List.eq_of_mem_replicate hy]
    decide

theorem wordPoly_replicate_zero {u : ℕ} (hu : u < 512) : wordPoly (List.replicate 512 0) u = 0 := by
  rw [wordPoly, rd_replicate hu]
  rfl

private theorem mulMod_zeroPoly (s : ℕ → Zq) : mulMod 512 s (coeffPoly zeroPoly.coeffs) = fun _ => 0 := by
  have hh : ∀ u < 512, coeffPoly zeroPoly.coeffs u = 0 := by
    intro u hu
    rw [coeffPoly, zeroPoly, rd_replicate hu]
    rfl
  rw [mulMod_congr (fun _ _ => rfl) hh, mulMod_comm]
  funext k
  exact mulMod_zero_left 512 _ k

/-- Under the zero key every array of words is accepted for the zero challenge. -/
theorem verifyWith_zeroPoly {hashToPoint : List UInt8 → List UInt8 → Option (List Word)} {transcript : List UInt8}
    (salt : ByteVec 40) (hp : hashToPoint salt.1 transcript = some (List.replicate 512 0)) {s2 : List Word}
    (hs : s2.length = 32) (fmp : ℕ) :
    verifyWith hashToPoint fmp transcript salt.1 s2 (packUint16Coeffs (mqNtt zeroPoly.coeffs 9)) =
      some (.ok true) := by
  have hrep : WordRep 512 (List.replicate 512 0) (wordPoly (List.replicate 512 0)) := by
    refine Represents.of_forall_mem List.length_replicate fun w hw => ?_
    rw [List.eq_of_mem_replicate hw]
    exact (by decide : (0 : Word).toNat < 12289)
  rw [verifyWith_iff salt hp hrep hs zeroPoly, visibleNorm, mulMod_zeroPoly, Finset.sum_eq_zero]
  · omega
  · intro u hu
    rw [wordPoly_replicate_zero (lt_trans (Finset.mem_range.1 hu) (by omega)), sub_zero]
    rfl

/-- A proof that the contract accepts is accepted by `verify_raw` as well, unless the squares that the contract
leaves out carry the norm over the bound. -/
theorem vrfFalconEvm_sound_iff {K : Keccak256} {fuel : ℕ} {transcript : List UInt8} (salt : ByteVec 40)
    {hashed : List Word} (hp : hashToPointEVM K fuel salt.1 transcript = some hashed) (s2 : PackedPoly)
    (h : PublicPoly) (fmp : ℕ) :
    (vrfFalconEvmVerify K fuel fmp transcript salt.1 s2.words (packUint16Coeffs (mqNtt h.coeffs 9)) =
        some (.ok true) →
      verifyRaw (pointCoeffs hashed) (centredCoeffs s2.words) (toNttMonty h.coeffs 9) 9 = true) ↔
    ¬ (visibleNorm (wordPoly hashed) (slotPoly s2.words) (coeffPoly h.coeffs) < 34034726 ∧
      34034726 < visibleNorm (wordPoly hashed) (slotPoly s2.words) (coeffPoly h.coeffs) +
        omittedNorm (wordPoly hashed) (slotPoly s2.words) (coeffPoly h.coeffs)) := by
  have hraw := verifyRaw_iff_sigNorm (by omega : 9 ≤ 10) (pointCoeffs_rep (hashToPointEVM_rep hp))
    (centredCoeffs_rep s2) (toNttMonty_rep (by omega) h.rep)
  have hbound : (rd l2bound 9).toNat = 34034726 := rfl
  have hraw : _ ↔ sigNorm 512 _ _ _ ≤ _ := hraw
  rw [vrfFalconEvmVerify_iff salt hp s2.length h fmp, hraw, hbound, sigNorm_eq_add, not_and, not_lt]

/-- The polynomial `6000`. -/
def largePoly : PackedPoly where
  words := 6000 :: List.replicate 31 0
  length := by simp
  reduced := by
    have h : ∀ e < 512, (slots (6000 :: List.replicate 31 0) e).toNat < 12289 := by decide +kernel
    exact h

/-- Under the zero hash and the zero key the contract accepts `s2 = 6000`, whose norm exceeds the bound. -/
theorem vrfFalconEvm_accepts_largePoly : ∃ fuel,
    hashToPointEVM zeroHash fuel (List.replicate 40 7) (List.replicate 64 1) = some (List.replicate 512 0) ∧
    vrfFalconEvmVerify zeroHash fuel 128 (List.replicate 64 1) (List.replicate 40 7) largePoly.words
      (packUint16Coeffs (mqNtt zeroPoly.coeffs 9)) = some (.ok true) ∧
    verifyRaw (pointCoeffs (List.replicate 512 0)) (centredCoeffs largePoly.words) (toNttMonty zeroPoly.coeffs 9) 9 =
      false := by
  obtain ⟨fuel, hp⟩ := hashToPointEVM_zeroHash (List.replicate 40 7) (List.replicate 64 1)
  have hsalt : (List.replicate 40 (7 : UInt8)).length = 40 := List.length_replicate
  refine ⟨fuel, hp, verifyWith_zeroPoly ⟨_, hsalt⟩ hp largePoly.length 128, ?_⟩
  have hraw := verifyRaw_iff_sigNorm (by omega : 9 ≤ 10) (pointCoeffs_rep (hashToPointEVM_rep hp))
    (centredCoeffs_rep largePoly) (toNttMonty_rep (by omega) zeroPoly.rep)
  have hlarge : normSq (slotPoly largePoly.words 0) = 36000000 := by decide +kernel
  have hle : normSq (slotPoly largePoly.words 0) ≤ ∑ u ∈ Finset.range (2 ^ 9), normSq (slotPoly largePoly.words u) :=
    Finset.single_le_sum (f := fun u => normSq (slotPoly largePoly.words u)) (fun _ _ => Nat.zero_le _)
      (Finset.mem_range.2 (show 0 < 2 ^ 9 by norm_num))
  rw [← Bool.not_eq_true, hraw, sigNorm, show (rd l2bound 9).toNat = 34034726 from rfl]
  omega

theorem vrfFalconEvm_sound_iff_largePoly : ∃ fuel,
    (vrfFalconEvmVerify zeroHash fuel 128 (List.replicate 64 1) (List.replicate 40 7) largePoly.words
        (packUint16Coeffs (mqNtt zeroPoly.coeffs 9)) = some (.ok true) →
      verifyRaw (pointCoeffs (List.replicate 512 0)) (centredCoeffs largePoly.words) (toNttMonty zeroPoly.coeffs 9) 9 =
        true) ↔
    ¬ (visibleNorm (wordPoly (List.replicate 512 0)) (slotPoly largePoly.words) (coeffPoly zeroPoly.coeffs) <
        34034726 ∧
      34034726 < visibleNorm (wordPoly (List.replicate 512 0)) (slotPoly largePoly.words) (coeffPoly zeroPoly.coeffs) +
        omittedNorm (wordPoly (List.replicate 512 0)) (slotPoly largePoly.words) (coeffPoly zeroPoly.coeffs)) := by
  obtain ⟨fuel, hp⟩ := hashToPointEVM_zeroHash (List.replicate 40 7) (List.replicate 64 1)
  have hsalt : (List.replicate 40 (7 : UInt8)).length = 40 := List.length_replicate
  exact ⟨fuel, vrfFalconEvm_sound_iff ⟨_, hsalt⟩ hp largePoly zeroPoly 128⟩

/-! ### Completeness -/

private theorem normSq_eq_zero {x : Zq} : normSq x = 0 ↔ x = 0 := by
  rw [normSq, pow_eq_zero_iff (by omega), Int.natAbs_eq_zero, ZMod.valMinAbs_eq_zero]

/-- Without `s2` the contract sees the norm of the hashed point. -/
private theorem visibleNorm_zero {c s : ℕ → Zq} (hs : ∀ u < 512, s u = 0) (h : ℕ → Zq) :
    visibleNorm c s h = ∑ u ∈ Finset.range 511, normSq (c u) := by
  rw [visibleNorm, mulMod_congr hs (fun _ _ => rfl)]
  refine Finset.sum_congr rfl fun u _ => ?_
  rw [mulMod_zero_left, sub_zero]

/-- Below the bound the contract differs from the C code only if the norm that it sees reaches the bound, and then
`s2 = 0`. -/
theorem visibleNorm_lt_iff {c s h : ℕ → Zq} (hn : sigNorm 512 c s h ≤ 34034726) :
    visibleNorm c s h < 34034726 ↔
      ¬ ((∀ u < 512, s u = 0) ∧ ∑ u ∈ Finset.range 511, normSq (c u) = 34034726) := by
  have hsplit := sigNorm_eq_add c s h
  rw [omittedNorm] at hsplit
  constructor
  · rintro hlt ⟨hs, hc⟩
    rw [visibleNorm_zero hs h, hc] at hlt
    omega
  · intro hne
    by_contra hge
    -- the visible part alone is the whole bound, so nothing is left for `s`
    have hsum : ∑ u ∈ Finset.range 512, normSq (s u) = 0 := by omega
    have hs : ∀ u < 512, s u = 0 := by
      intro u hu
      rw [Finset.sum_eq_zero_iff] at hsum
      exact normSq_eq_zero.1 (hsum u (Finset.mem_range.2 hu))
    refine hne ⟨hs, ?_⟩
    rw [← visibleNorm_zero hs h]
    omega

/-- The packed coefficients of `s2` represent the polynomial of the C code. -/
private theorem slotPoly_packInt16Coeffs {s2 : List Int16} (hl : s2.length = 512)
    (hx : ∀ x ∈ s2, x.toInt.natAbs ≤ 2047) {e : ℕ} (he : e < 512) :
    slotPoly (packInt16Coeffs s2) e = ofInt16 (rd s2 e) := by
  have hx' : ∀ x ∈ s2, -12289 < x.toInt ∧ x.toInt < 12289 := by
    intro x hmem
    have := hx x hmem
    omega
  obtain ⟨h1, h2⟩ := hx' _ (mem_rd (show e < s2.length by omega))
  rw [slotPoly, slots_packInt16Coeffs hl hx' he, ofWord_slotOfInt16 h1 h2]

private theorem ofInt16_eq_zero {z : Int16} (hz : z.toInt.natAbs ≤ 2047) : ofInt16 z = 0 ↔ z = 0 := by
  rw [← normSq_eq_zero, ← sq_eq_normSq ⟨by omega, by omega⟩, Crypto.sq, pow_eq_zero_iff (by omega), Int.natAbs_eq_zero,
    ← Int16.toInt_inj]
  rfl

/-- The hashed point of the contract and the challenge of the C code are the same polynomial. -/
private theorem wordPoly_map_wordOfUInt16 {ys : List UInt16} {e : ℕ} (he : e < ys.length) :
    wordPoly (ys.map wordOfUInt16) e = coeffPoly ys e := by
  have hlt := (rd ys e).toNat_lt
  rw [wordPoly, rd_map _ he, coeffPoly, toZq, UInt16.toNat_toUInt32, ofWord, wordOfUInt16, BitVec.toNat_ofNat,
    Nat.mod_eq_of_lt (by omega)]

theorem first_draws_rep {stream : ℕ → UInt8} {ys : List UInt16}
    (h : Sampling.First (fun j => (draws stream j).map UInt16.ofNat) 512 ys) : Rep 512 ys (coeffPoly ys) := by
  refine Represents.of_forall_mem h.length fun y hy => ?_
  obtain ⟨j, hj⟩ := h.mem hy
  obtain ⟨c, hc, rfl⟩ := Option.map_eq_some_iff.1 hj
  have hlt := draws_lt hc
  rw [Reduced, UInt16.toNat_toUInt32, UInt16.toNat_ofNat']
  omega

private theorem visibleNorm_congr {c c' s s' : ℕ → Zq} (hc : ∀ u < 512, c u = c' u) (hs : ∀ u < 512, s u = s' u)
    (h : ℕ → Zq) : visibleNorm c s h = visibleNorm c' s' h := by
  rw [visibleNorm, visibleNorm, mulMod_congr hs (fun _ _ => rfl)]
  refine Finset.sum_congr rfl fun u hu => ?_
  rw [hc u (lt_trans (Finset.mem_range.1 hu) (by omega))]

/-- What the C code accepts satisfies the norm bound. -/
private theorem sigNorm_le_of_accepted {pubkey body : List UInt8} {hm : List UInt16} {s2 : List Int16} {h : List UInt16}
    (hrep : Rep 512 hm (coeffPoly hm)) (ha : Accepted pubkey body hm s2 h) :
    sigNorm 512 (coeffPoly hm) (fun e => ofInt16 (rd s2 e)) (coeffPoly h) ≤ 34034726 := by
  obtain ⟨hhl, hhx⟩ := modqDecode_spec ha.key
  have hraw := (verifyRaw_iff_sigNorm (by omega : 9 ≤ 10) hrep (repCentred_of_compDecode ha.body)
    (toNttMonty_rep (by omega) (PublicPoly.mk h hhl hhx).rep)).1 ha.equation
  exact hraw

/-- The contract on the parts of a signature: it sees the challenge of the C code. -/
theorem vrfFalconEvmVerify_parts_iff {K : Keccak256} {fuel : ℕ} {data : List UInt8} (nonce : ByteVec 40)
    (hl : 40 + data.length ≤ 4096) {hm : List UInt16}
    (hp : keccakHashToPointVartime K fuel (KeccakPrng.seeded K [nonce.1, data]) 9 = some hm) {s2 : List Int16}
    (hsl : s2.length = 512) (hsx : ∀ x ∈ s2, x.toInt.natAbs ≤ 2047) (h : PublicPoly) (fmp : ℕ) :
    (∃ fuel', vrfFalconEvmVerify K fuel' fmp data nonce.1 (packInt16Coeffs s2)
        (packUint16Coeffs (mqNtt h.coeffs 9)) = some (.ok true)) ↔
      visibleNorm (coeffPoly hm) (fun e => ofInt16 (rd s2 e)) (coeffPoly h.coeffs) < 34034726 := by
  have hpack := length_packInt16Coeffs hsl
  obtain ⟨fuel1, hp1⟩ := (hashToPointEVM_eq_keccak K nonce.2 hl (hm.map wordOfUInt16)).2 ⟨fuel, hm, hp, rfl⟩
  have hlen : hm.length = 512 := by
    have := (hashToPointEVM_rep hp1).length
    rwa [List.length_map] at this
  have hvis := visibleNorm_congr (c := wordPoly (hm.map wordOfUInt16))
    (fun u hu => wordPoly_map_wordOfUInt16 (by rw [hlen]; exact hu)) (fun u hu => slotPoly_packInt16Coeffs hsl hsx hu)
    (coeffPoly h.coeffs)
  rw [← hvis]
  constructor
  · rintro ⟨fuel', hv⟩
    obtain ⟨_, _, _, hashed, hp', _⟩ := verifyWith_eq_true.1 hv
    -- the hashed point does not depend on the number of rounds that were needed
    have hfirst := (hashToPointEVM_iff K nonce.1 data _).1 ⟨fuel', hp'⟩
    obtain rfl : hashed = _ := hfirst.unique ((hashToPointEVM_iff K nonce.1 data _).1 ⟨fuel1, hp1⟩)
    exact (vrfFalconEvmVerify_iff nonce hp' hpack h fmp).1 hv
  · intro hlt
    exact ⟨fuel1, (vrfFalconEvmVerify_iff nonce hp1 hpack h fmp).2 hlt⟩

/-- A signature that the C code accepts is accepted by the contract, unless `s2 = 0` and the first 511 squares of
the challenge add up to the bound. -/
theorem vrfFalconEvm_complete_iff {K : Keccak256} {fuel : ℕ} {sig : List UInt8} {pubkey : ByteVec 897}
    {data : List UInt8} (hl : 40 + data.length ≤ 4096)
    (ha : verifyCompressedKeccak K fuel sig pubkey data = some 0) (fmp : ℕ) : ∃ nonce s2 h hm,
      falconKeccakNonce sig = .ok nonce ∧ falconKeccakS2Coeffs sig = .ok s2 ∧ pubkeyCoeffs pubkey = .ok h ∧
      keccakHashToPointVartime K fuel (KeccakPrng.seeded K [nonce, data]) 9 = some hm ∧
      ((∃ fuel', vrfFalconEvmVerify K fuel' fmp data nonce (packInt16Coeffs s2)
          (packUint16Coeffs (mqNtt h 9)) = some (.ok true)) ↔
        ¬ (s2 = List.replicate 512 0 ∧ ∑ u ∈ Finset.range 511, normSq (coeffPoly hm u) = 34034726)) := by
  obtain ⟨nonce, hm, s2, h, h1, h2, h3, hpoint, hacc⟩ := parts_of_accepted ha
  refine ⟨nonce.1, s2, h, hm, h1, h2, h3, hpoint, ?_⟩
  obtain ⟨hsl, hsx, _⟩ := compDecode_spec hacc.body
  obtain ⟨hhl, hhx⟩ := modqDecode_spec hacc.key
  have hrep := first_draws_rep ((keccakHashToPointVartime_iff K [nonce.1, data] 9 hm).1 ⟨fuel, hpoint⟩)
  have hiff := vrfFalconEvmVerify_parts_iff nonce hl hpoint hsl hsx ⟨h, hhl, hhx⟩ fmp
  have hzero : (∀ u < 512, ofInt16 (rd s2 u) = 0) ↔ s2 = List.replicate 512 0 := by
    constructor
    · intro h0
      apply ext_rd (by rw [hsl, List.length_replicate]; rfl)
      intro u hu
      have hu' : u < 512 := by rwa [hsl] at hu
      rw [rd_replicate hu']
      exact (ofInt16_eq_zero (hsx _ (mem_rd hu))).1 (h0 u hu')
    · rintro rfl u hu
      rw [rd_replicate hu]
      rfl
  rw [hiff, visibleNorm_lt_iff (sigNorm_le_of_accepted hrep hacc), hzero]

theorem vrfFalconEvm_complete_iff_zero : ∃ nonce s2 h hm fuel,
    falconKeccakNonce (0x39 :: (List.replicate 40 7 ++ zeroBody)) = .ok nonce ∧
    falconKeccakS2Coeffs (0x39 :: (List.replicate 40 7 ++ zeroBody)) = .ok s2 ∧ pubkeyCoeffs zeroPubkey = .ok h ∧
    keccakHashToPointVartime zeroHash fuel (KeccakPrng.seeded zeroHash [nonce, List.replicate 64 1]) 9 = some hm ∧
    ((∃ fuel', vrfFalconEvmVerify zeroHash fuel' 128 (List.replicate 64 1) nonce (packInt16Coeffs s2)
        (packUint16Coeffs (mqNtt h 9)) = some (.ok true)) ↔
      ¬ (s2 = List.replicate 512 0 ∧ ∑ u ∈ Finset.range 511, normSq (coeffPoly hm u) = 34034726)) := by
  obtain ⟨fuel, ha⟩ := verifyCompressedKeccak_zero ⟨List.replicate 40 7, List.length_replicate⟩ (List.replicate 64 1)
  obtain ⟨nonce, s2, h, hm, hall⟩ :=
    vrfFalconEvm_complete_iff (by rw [List.length_replicate]; omega) ha 128
  exact ⟨nonce, s2, h, hm, fuel, hall⟩

/-! ### A challenge on the bound -/

/-- The samples 5833, 104, 4, 2, 1, whose squares add up to the bound, and zeros. -/
def boundaryBlock : ByteVec 32 := ⟨[0x16, 0xC9, 0, 0x68, 0, 4, 0, 2, 0, 1] ++ List.replicate 22 0, rfl⟩

/-- The hash function that maps the first block of the zero state to these samples and everything else to zero. -/
def boundaryHash : Keccak256 := fun bs =>
  if bs = List.replicate 40 0 then boundaryBlock else zeroHash bs

private theorem keystream_boundaryHash {p : ℕ} (hp : p < 1024) :
    KeccakPrng.keystream boundaryHash ⟨List.replicate 32 0, List.length_replicate⟩ p = rd boundaryBlock.1 p := by
  have hzero : ∀ k < 32, List.replicate 32 0 ++ KeccakPrng.counterBytes (UInt64.ofNat k) = List.replicate 40 0 ↔
      k = 0 := by decide +kernel
  rw [KeccakPrng.keystream, boundaryHash]
  by_cases h : p < 32
  · rw [if_pos ((hzero _ (by omega)).2 (by omega)), Nat.mod_eq_of_lt h]
  · have hne : p / 32 ≠ 0 := by omega
    rw [if_neg (fun hc => hne ((hzero _ (by omega)).1 hc)), zeroHash, rd_replicate (Nat.mod_lt p (by omega)), rd,
      List.getD_eq_default _ _ (by rw [boundaryBlock.2]; omega)]
    rfl

private theorem draws_boundaryHash {j : ℕ} (hj : j < 512) :
    draws (KeccakPrng.keystream boundaryHash ⟨List.replicate 32 0, List.length_replicate⟩) j =
      some (rd [5833, 104, 4, 2, 1] j) := by
  rw [draws, sampleAt, keystream_boundaryHash (by omega), keystream_boundaryHash (by omega)]
  by_cases h : j < 16
  · have hall : ∀ j < 16, acceptSample ((rd boundaryBlock.1 (2 * j)).toNat * 256 +
        (rd boundaryBlock.1 (2 * j + 1)).toNat) = some (rd [5833, 104, 4, 2, 1] j) := by decide
    exact hall j h
  · have hrd : ∀ p, 32 ≤ p → rd boundaryBlock.1 p = 0 := fun p hp =>
      List.getD_eq_default _ _ (by rw [boundaryBlock.2]; exact hp)
    rw [hrd _ (by omega), hrd _ (by omega), rd, List.getD_eq_default _ _ (by simp; omega)]
    decide

/-- The challenge on the bound. -/
def boundaryPoint : List UInt16 := (List.range 512).map fun j => UInt16.ofNat (rd [5833, 104, 4, 2, 1] j)

private theorem keccakHashToPointVartime_boundaryHash (inputs : List (List UInt8))
    (h : KeccakPrng.absorbed [] inputs ≠ List.replicate 40 0) : ∃ fuel,
      keccakHashToPointVartime boundaryHash fuel (KeccakPrng.seeded boundaryHash inputs) 9 = some boundaryPoint := by
  have hstate : boundaryHash (KeccakPrng.absorbed [] inputs) = ⟨List.replicate 32 0, List.length_replicate⟩ := if_neg h
  rw [keccakHashToPointVartime_iff, hstate]
  refine Sampling.first_of_forall_lt fun j hj => ?_
  rw [draws_boundaryHash hj]
  rfl

/-- The squares of the first coefficients of the challenge. -/
private theorem sum_normSq_boundaryPoint {k : ℕ} (h5 : 5 ≤ k) (hk : k ≤ 512) :
    ∑ u ∈ Finset.range k, normSq (coeffPoly boundaryPoint u) = 34034726 := by
  have hcoeff : ∀ u < 512, coeffPoly boundaryPoint u = toZq (UInt16.ofNat (rd [5833, 104, 4, 2, 1] u)).toUInt32 := by
    intro u hu
    rw [coeffPoly, boundaryPoint, rd_map_range _ hu]
  obtain ⟨m, rfl⟩ := Nat.exists_eq_add_of_le h5
  rw [Finset.sum_range_add]
  have hzero : ∑ u ∈ Finset.range m, normSq (coeffPoly boundaryPoint (5 + u)) = 0 := by
    refine Finset.sum_eq_zero fun u hu => ?_
    rw [Finset.mem_range] at hu
    rw [hcoeff _ (by omega), rd, List.getD_eq_default _ _ (by simp)]
    rfl
  have hfive : ∑ u ∈ Finset.range 5, normSq (coeffPoly boundaryPoint u) =
      ∑ u ∈ Finset.range 5, normSq (toZq (UInt16.ofNat (rd [5833, 104, 4, 2, 1] u)).toUInt32) :=
    Finset.sum_congr rfl fun u hu => by rw [hcoeff u (lt_trans (Finset.mem_range.1 hu) (by omega))]
  rw [hzero, hfive]
  decide +kernel

/-- The zero signature under the zero key is accepted by the C code for a challenge on the bound and rejected by the
contract. -/
theorem vrfFalconEvm_rejects_boundary :
    falconKeccakS2Coeffs (0x39 :: (List.replicate 40 7 ++ zeroBody)) = .ok (List.replicate 512 0) ∧
    pubkeyCoeffs zeroPubkey = .ok (List.replicate 512 0) ∧
    (∃ fuel, verifyCompressedKeccak boundaryHash fuel (0x39 :: (List.replicate 40 7 ++ zeroBody)) zeroPubkey
      (List.replicate 64 1) = some 0) ∧
    ∀ fuel, vrfFalconEvmVerify boundaryHash fuel 128 (List.replicate 64 1) (List.replicate 40 7)
      (packInt16Coeffs (List.replicate 512 0)) (packUint16Coeffs (mqNtt (List.replicate 512 0) 9)) ≠
        some (.ok true) := by
  have hn : (List.replicate 40 (7 : UInt8)).length = 40 := List.length_replicate
  have hl : 40 + (List.replicate 64 (1 : UInt8)).length ≤ 4096 := by rw [List.length_replicate]; omega
  have habs : KeccakPrng.absorbed [] [List.replicate 40 7, List.replicate 64 1] ≠ List.replicate 40 0 := by
    intro h
    have hlen := congrArg List.length h
    rw [KeccakPrng.absorbed_eq_append (by simp [maxBufferSize])] at hlen
    simp at hlen
  obtain ⟨fuel, hp⟩ := keccakHashToPointVartime_boundaryHash _ habs
  have hrep : Rep 512 boundaryPoint (coeffPoly boundaryPoint) :=
    first_draws_rep ((keccakHashToPointVartime_iff boundaryHash _ 9 boundaryPoint).1 ⟨fuel, hp⟩)
  have hdrop : (0x39 :: (List.replicate 40 7 ++ zeroBody)).drop 41 = zeroBody := by
    rw [List.drop_succ_cons, List.drop_left' hn]
  refine ⟨?_, ?_, ⟨fuel, ?_⟩, ?_⟩
  · have hlogn : ((0x39 : UInt8) &&& 0x0F).toNat = 9 := rfl
    have hhead : rd (0x39 :: (List.replicate 40 7 ++ zeroBody)) 0 = 0x39 := rfl
    rw [falconKeccakS2Coeffs, if_neg (by rw [List.length_cons, List.length_append, hn, length_zeroBody]; omega), hdrop,
      hhead, if_neg (by decide)]
    simp only [hlogn, compDecode_zeroBody]
    rw [if_pos (by rw [length_zeroBody]; omega)]
  · have hlogn : det512Logn = 9 := rfl
    rw [pubkeyCoeffs, hlogn, modqDecode_zeroPubkey]
    rfl
  · exact verifyCompressedKeccak_of_parts ⟨_, hn⟩ hp
      (accepted_zero hrep (sum_normSq_boundaryPoint (by omega) (le_refl _)).le)
  · intro fuel' hv
    have hz : ∀ x ∈ List.replicate 512 (0 : Int16), x.toInt.natAbs ≤ 2047 := by
      intro x hx
      rw [List.eq_of_mem_replicate hx]
      decide
    have hlt := (vrfFalconEvmVerify_parts_iff ⟨_, hn⟩ hl hp List.length_replicate hz zeroPoly 128).1 ⟨fuel', hv⟩
    rw [visibleNorm_zero, sum_normSq_boundaryPoint (by omega) (by omega)] at hlt
    · omega
    · intro u hu
      rw [rd_replicate hu]
      rfl

end DfVrf
