import DfVrf.Crypto.Encoder
import DfVrf.Crypto.Norm
import DfVrf.Crypto.Sign

/-!
# The size of a compressed signature (`codec.c`, `deterministic.h`)

A coefficient `x` takes `9 + |x| / 128` bits, so that the size of an encoding is determined by the sum of the
quotients `|x| / 128` (`length_compEncode`).  The norm bound limits this sum to 1029 (`unarySum_le`), hence an
encoding to 705 bytes.  The buffer of the SHAKE256 mode has room for that, since the signature carries one byte of
salt; in Keccak-256 mode the nonce of 40 bytes leaves too little (`length_signCompressedKeccak_le_iff`).
-/

namespace DfVrf.Crypto

open InPlace

/-- `FALCON_DET512_SIG_COMPRESSED_MAXSIZE`. -/
def det512SigCompressedMaxSize : ℕ := sigCompressedMaxSize det512Logn - 40 + 1

/-- The sum of the unary parts of the encodings. -/
def unarySum (xs : List Int16) : ℕ := (xs.map fun x => x.toInt.natAbs / 128).sum

/-- The squared norm of a polynomial. -/
def sqNorm (xs : List Int16) : ℕ := (xs.map sq).sum

/-- What the sampler is expected to return for `s2`. -/
structure ShortPoly where
  coeffs : List Int16
  length : coeffs.length = 512
  range : ∀ x ∈ coeffs, x.toInt.natAbs ≤ 2047
  short : sqNorm coeffs ≤ 34034726

private theorem length_flatMap_encodeCoeff (xs : List Int16) :
    (xs.flatMap encodeCoeff).length = 9 * xs.length + unarySum xs := by
  induction xs with
  | nil => rfl
  | cons x xs ih =>
    rw [List.flatMap_cons, List.length_append, length_encodeCoeff, ih]
    simp only [unarySum, List.map_cons, List.sum_cons, List.length_cons]
    omega

/-- The encoding is as long as its bits need. -/
theorem length_compEncode {maxOutLen : ℕ} {xs : List Int16} {out : List UInt8}
    (h : compEncode maxOutLen xs = some out) :
    out.length = (9 * xs.length + unarySum xs + 7) / 8 := by
  obtain ⟨_, _, pad, hp, hbits⟩ := compEncode_spec h
  have hlen := congrArg List.length hbits
  rw [Bits.length_ofBytes, List.length_append, length_flatMap_encodeCoeff, List.length_replicate] at hlen
  omega

/-- The quotient `k = |x| / 128` costs at least `5 * k - 6` times `128 ^ 2` of the norm. -/
private theorem unary_le_sq (x : Int16) : 16384 * (5 * (x.toInt.natAbs / 128)) ≤ sq x + 16384 * 6 := by
  obtain ⟨k, hk⟩ : ∃ k, x.toInt.natAbs / 128 = k := ⟨_, rfl⟩
  have hsq : 16384 * (k * k) ≤ sq x := by
    have hle : 128 * k ≤ x.toInt.natAbs := by omega
    calc 16384 * (k * k) = (128 * k) ^ 2 := by ring
      _ ≤ sq x := Nat.pow_le_pow_left hle 2
  -- the bound is tight at `k = 2` and `k = 3`
  have hquad : 5 * k ≤ k * k + 6 := by
    rcases Nat.lt_or_ge k 3 with h | h
    · interval_cases k <;> omega
    · obtain ⟨j, rfl⟩ := Nat.exists_eq_add_of_le h
      nlinarith [Nat.zero_le (j * j)]
  rw [hk]
  omega

private theorem unarySum_le_sqNorm (xs : List Int16) :
    16384 * (5 * unarySum xs) ≤ sqNorm xs + 16384 * 6 * xs.length := by
  induction xs with
  | nil => simp [unarySum]
  | cons x xs ih =>
    have hx := unary_le_sq x
    simp only [unarySum, sqNorm, List.map_cons, List.sum_cons, List.length_cons] at ih ⊢
    omega

/-- The norm bound limits the unary parts of the encoding. -/
theorem unarySum_le (s2 : ShortPoly) : unarySum s2.coeffs ≤ 1029 := by
  have h := unarySum_le_sqNorm s2.coeffs
  have hshort := s2.short
  rw [s2.length] at h
  omega

/-- A short polynomial has an encoding, of at most 705 bytes. -/
theorem exists_compEncode (s2 : ShortPoly) {maxOutLen : ℕ} (hm : 705 ≤ maxOutLen) :
    ∃ out, compEncode maxOutLen s2.coeffs = some out ∧ out.length ≤ 705 := by
  have hsum := unarySum_le s2
  have hbits := length_flatMap_encodeCoeff s2.coeffs
  rw [s2.length] at hbits
  have hroom : (s2.coeffs.flatMap encodeCoeff).length ≤ 8 * maxOutLen := by omega
  obtain ⟨out, hout⟩ := compEncode_complete s2.range hroom
  have hlen := length_compEncode hout
  rw [s2.length] at hlen
  exact ⟨out, hout, by omega⟩

theorem sum_map_eq_sum_range {β : Type*} [Inhabited β] (f : β → ℕ) (xs : List β) :
    (xs.map f).sum = ∑ u ∈ Finset.range xs.length, f (rd xs u) := by
  induction xs with
  | nil => rfl
  | cons x xs ih =>
    rw [List.map_cons, List.sum_cons, ih, List.length_cons, Finset.sum_range_succ', Nat.add_comm]
    rfl

/-- The `s2` of an accepted signature is short. -/
theorem Accepted.sqNorm_le {pubkey body : List UInt8} {hm : List UInt16} {s2 : List Int16} {h : List UInt16}
    (ha : Accepted pubkey body hm s2 h) : sqNorm s2 ≤ 34034726 := by
  obtain ⟨hl, _⟩ := compDecode_spec ha.body
  have heq := ha.equation
  rw [verifyRaw] at heq
  have hle := (isShort_iff _ s2 9).1 heq
  rw [Finset.sum_add_distrib] at hle
  rw [sqNorm, sum_map_eq_sum_range, hl]
  exact le_trans (Nat.le_add_left _ _) hle

/-- The body of an accepted signature has at most 705 bytes. -/
theorem Accepted.length_body {pubkey body : List UInt8} {hm : List UInt16} {s2 : List Int16} {h : List UInt16}
    (ha : Accepted pubkey body hm s2 h) : body.length ≤ 705 := by
  obtain ⟨hl, hx, _⟩ := compDecode_spec ha.body
  obtain ⟨out, hout, hle⟩ := exists_compEncode ⟨s2, hl, hx, ha.sqNorm_le⟩ (le_refl 705)
  have hdec := compDecode_compEncode hl hout
  rwa [compDecode_unique ha.body hdec]

/-! ### Signatures in Keccak-256 mode -/

/-- The signature assembled from what the sampler returns. -/
theorem signCompressedKeccak_of_parts {K : Keccak256} {perm : Lanes → Lanes}
    {signDyn : Shake256 → PrivatePolys → List UInt16 → ℕ → Option (List Int16)} {fuel : ℕ}
    {privkey : ByteVec 1281} {data : List UInt8} {sk : PrivatePolys} {hm : List UInt16} {s2 : List Int16}
    {body : List UInt8} (hsk : decodePrivkey privkey = .ok sk)
    (hpoint : keccakHashToPointVartime K fuel (KeccakPrng.seeded K [detNonce K privkey data, data]) 9 = some hm)
    (hs2 : signDyn (shake256InitPrngFromSeed perm (detNonce K privkey data)) sk hm 9 = some s2)
    (hbody : compEncode 711 s2 = some body) : signCompressedKeccak K perm signDyn fuel privkey data =
      some (.ok ⟨detNonce K privkey data, 0x39 :: (detNonce K privkey data ++ body)⟩) :=
  signCompressedKeccak_eq_ok.2 ⟨rfl, sk, hm, s2, body, hsk, hpoint, hs2, hbody, rfl⟩

/-- The length of the signature of a short polynomial. -/
theorem length_signature (nonce : ByteVec 40) {s2 : ShortPoly} {body : List UInt8}
    (hbody : compEncode 711 s2.coeffs = some body) :
    ((0x39 : UInt8) :: (nonce.1 ++ body)).length = 41 + (4608 + unarySum s2.coeffs + 7) / 8 := by
  rw [List.length_cons, List.length_append, nonce.2, length_compEncode hbody, s2.length]
  omega

/-- A signature of a short polynomial is always assembled, and fits the declared size exactly when the sum of the
quotients `|x| / 128` is at most 768. -/
theorem length_signCompressedKeccak_le_iff {K : Keccak256} {perm : Lanes → Lanes}
    {signDyn : Shake256 → PrivatePolys → List UInt16 → ℕ → Option (List Int16)} {fuel : ℕ}
    {privkey : ByteVec 1281} {data : List UInt8} {sk : PrivatePolys} {hm : List UInt16} (s2 : ShortPoly)
    (hsk : decodePrivkey privkey = .ok sk)
    (hpoint : keccakHashToPointVartime K fuel (KeccakPrng.seeded K [detNonce K privkey data, data]) 9 = some hm)
    (hs2 : signDyn (shake256InitPrngFromSeed perm (detNonce K privkey data)) sk hm 9 = some s2.coeffs) :
    ∃ run, signCompressedKeccak K perm signDyn fuel privkey data = some (.ok run) ∧
      (run.sig.length ≤ det512SigCompressedMaxSize ↔ (s2.coeffs.map fun x => x.toInt.natAbs / 128).sum ≤ 768) := by
  obtain ⟨body, hbody, _⟩ := exists_compEncode s2 (show 705 ≤ 711 by omega)
  refine ⟨_, signCompressedKeccak_of_parts hsk hpoint hs2 hbody, ?_⟩
  have hlen := length_signature ⟨_, length_detNonce K privkey data⟩ hbody
  rw [unarySum] at hlen
  rw [hlen, show det512SigCompressedMaxSize = 713 from rfl]
  omega

/-- The polynomial with all coefficients 256. -/
def widePoly : ShortPoly where
  coeffs := List.replicate 512 256
  length := List.length_replicate
  range x hx := by
    rw [List.eq_of_mem_replicate hx]
    decide
  short := by
    rw [sqNorm, List.map_replicate, List.sum_replicate]
    decide

/-- The sampler that always returns `s2`. -/
def constSampler (s2 : ShortPoly) (_ : Shake256) (_ : PrivatePolys) (_ : List UInt16) (_ : ℕ) : Option (List Int16) :=
  some s2.coeffs

theorem constSampler_eq (s2 : ShortPoly) (rng : Shake256) (sk : PrivatePolys) (hm : List UInt16) (logn : ℕ) :
    constSampler s2 rng sk hm logn = some s2.coeffs := rfl

theorem unarySum_widePoly : unarySum widePoly.coeffs = 1024 := by
  rw [unarySum, widePoly, List.map_replicate, List.sum_replicate]
  decide

/-- The signature of the polynomial with all coefficients 256 has 745 bytes. -/
theorem length_signCompressedKeccak_widePoly : ∃ fuel run,
    signCompressedKeccak zeroHash zeroPerm (constSampler widePoly) fuel unitPrivkey [] = some (.ok run) ∧
      run.sig.length = 745 ∧ ¬ run.sig.length ≤ det512SigCompressedMaxSize := by
  obtain ⟨fuel, hpoint⟩ := keccakHashToPointVartime_zeroHash [detNonce zeroHash unitPrivkey [], []]
  obtain ⟨body, hbody, _⟩ := exists_compEncode widePoly (show 705 ≤ 711 by omega)
  refine ⟨fuel, _, signCompressedKeccak_of_parts decodePrivkey_unitPrivkey hpoint (constSampler_eq _ _ _ _ _) hbody, ?_⟩
  have hlen := length_signature ⟨_, length_detNonce zeroHash unitPrivkey []⟩ hbody
  rw [unarySum_widePoly] at hlen
  rw [hlen]
  decide

theorem length_signCompressedKeccak_le_iff_widePoly : ∃ fuel run,
    signCompressedKeccak zeroHash zeroPerm (constSampler widePoly) fuel unitPrivkey [] = some (.ok run) ∧
      (run.sig.length ≤ det512SigCompressedMaxSize ↔
        (widePoly.coeffs.map fun x => x.toInt.natAbs / 128).sum ≤ 768) := by
  obtain ⟨fuel, hpoint⟩ := keccakHashToPointVartime_zeroHash [detNonce zeroHash unitPrivkey [], []]
  exact ⟨fuel, length_signCompressedKeccak_le_iff widePoly
    decodePrivkey_unitPrivkey hpoint (constSampler_eq _ _ _ _ _)⟩

end DfVrf.Crypto
