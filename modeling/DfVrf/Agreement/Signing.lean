import DfVrf.Agreement.Verify
import DfVrf.Crypto.ConstantTime
import DfVrf.Crypto.SignDyn

/-!
# The C signer and the C verifier

Whatever short polynomial the sampler returns for the challenge that has been hashed, the assembled signature is
accepted in the same mode, and its parts can be read back (`signed_verified_accessed`).
-/

namespace DfVrf

open InPlace Negacyclic Crypto

/-- A private and a public key that can be decoded. -/
structure KeyPair where
  privkey : ByteVec 1281
  pubkey : ByteVec 897
  polys : PrivatePolys
  h : List UInt16
  privkey_eq : decodePrivkey privkey = .ok polys
  header : rd pubkey.1 0 = 0x09
  pubkey_eq : modqDecode 9 (pubkey.1.drop 1) = some (h, 896)

/-- What the sampler is expected to return for the challenge `hm`: the pair `(c - s2 * h, s2)` is short. -/
structure SampledFor (h hm : List UInt16) (s2 : List Int16) : Prop where
  length : s2.length = 512
  range : ∀ x ∈ s2, x.toInt.natAbs ≤ 2047
  short : sigNorm 512 (coeffPoly hm) (fun e => ofInt16 (rd s2 e)) (coeffPoly h) ≤ 34034726

theorem KeyPair.rep (kp : KeyPair) : Rep 512 kp.h (coeffPoly kp.h) := by
  obtain ⟨hl, hlt⟩ := modqDecode_spec kp.pubkey_eq
  refine Represents.of_forall_mem hl fun y hy => ?_
  rw [Reduced, UInt16.toNat_toUInt32]
  exact hlt y hy

private theorem repCentred_of_range {s2 : List Int16} (hl : s2.length = 512) (hx : ∀ x ∈ s2, x.toInt.natAbs ≤ 2047) :
    RepCentred 512 s2 (fun e => ofInt16 (rd s2 e)) := by
  refine Represents.of_forall_mem hl fun x hmem => ?_
  have := hx x hmem
  omega

/-- The norm of the coefficients is that of the polynomial over `ℤ_q`. -/
private theorem sqNorm_eq_sum_normSq {s2 : List Int16} (hl : s2.length = 512) (hx : ∀ x ∈ s2, x.toInt.natAbs ≤ 2047) :
    sqNorm s2 = ∑ u ∈ Finset.range 512, normSq (ofInt16 (rd s2 u)) := by
  rw [sqNorm, sum_map_eq_sum_range, hl]
  refine Finset.sum_congr rfl fun u hu => ?_
  rw [sq_eq_normSq ((repCentred_of_range hl hx).ok_rd u (Finset.mem_range.1 hu))]

namespace SampledFor

variable {h hm : List UInt16} {s2 : List Int16}

theorem rep (hs : SampledFor h hm s2) : RepCentred 512 s2 (fun e => ofInt16 (rd s2 e)) :=
  repCentred_of_range hs.length hs.range

/-- The sampled polynomial is short itself. -/
theorem sqNorm_le (hs : SampledFor h hm s2) : sqNorm s2 ≤ 34034726 := by
  rw [sqNorm_eq_sum_normSq hs.length hs.range]
  exact le_trans (Nat.le_add_left _ _) hs.short

/-- The sampled polynomial has an encoding. -/
theorem exists_body (hs : SampledFor h hm s2) : ∃ body, compEncode 711 s2 = some body ∧ body.length ≤ 705 :=
  exists_compEncode ⟨s2, hs.length, hs.range, hs.sqNorm_le⟩ (by omega)

/-- The encoding is accepted for the challenge. -/
theorem accepted {kp : KeyPair} {body : List UInt8} (hs : SampledFor kp.h hm s2) (hm_rep : Rep 512 hm (coeffPoly hm))
    (hbody : compEncode 711 s2 = some body) : Accepted kp.pubkey.1 body hm s2 kp.h where
  header := kp.header
  key := kp.pubkey_eq
  body := compDecode_compEncode hs.length hbody
  equation := by
    have hh := toNttMonty_rep (show 9 ≤ 10 by omega) kp.rep
    exact (verifyRaw_iff_sigNorm (by omega) hm_rep hs.rep hh).2 hs.short

end SampledFor

/-- In SHAKE256 mode the assembled signature is accepted, and its conversion contains the sampled polynomial. -/
private theorem signCompressed_roundTrip {perm : Lanes → Lanes}
    {signDyn : Shake256 → PrivatePolys → List UInt16 → ℕ → Option (List Int16)} (kp : KeyPair) (data : List UInt8)
    (beyond : ℕ → UInt8) {fuel : ℕ} {hm : List UInt16} {s2 : List Int16}
    (hpoint : hashToPointVartime perm fuel (Shake256.seeded perm [writeSalt 0, data]) 9 = some hm)
    (hs2 : signDyn (detRng perm kp.privkey data) kp.polys hm 9 = some s2) (hs : SampledFor kp.h hm s2) :
    ∃ sig, signCompressed perm signDyn fuel kp.privkey data = some (.ok sig) ∧
      verifyCompressed perm fuel sig kp.pubkey data = some 0 ∧
        ∃ ct : ByteVec 770, convertCompressedToCt beyond sig = .ok ct.1 ∧ s2Coeffs ct = .ok s2 := by
  obtain ⟨body, hbody, hlen⟩ := hs.exists_body
  have hfirst := (hashToPointVartime_iff perm [writeSalt 0, data] 9 hm).1 ⟨fuel, hpoint⟩
  have hacc := hs.accepted (first_draws_rep hfirst) hbody
  refine ⟨0xB9 :: 0 :: body, signCompressed_of_parts kp.privkey_eq hpoint hs2 hbody,
    verifyCompressed_of_parts 0 (by omega) hpoint hacc, ?_⟩
  have hdec : compDecode 9 body = some (s2, body.length) := hacc.body
  have hconv : convertCompressedToCt beyond (0xB9 :: 0 :: body) = .ok (ctSig 0 s2) :=
    convertCompressedToCt_of_body beyond 0 hdec
  exact ⟨⟨ctSig 0 s2, length_ctSig 0 hs.length⟩, hconv, s2Coeffs_ctSig 0 hs.length hs.range rfl⟩

/-- In Keccak-256 mode the assembled signature is accepted, and it contains the nonce and the sampled polynomial. -/
private theorem signCompressedKeccak_roundTrip {K : Keccak256} {perm : Lanes → Lanes}
    {signDyn : Shake256 → PrivatePolys → List UInt16 → ℕ → Option (List Int16)} (kp : KeyPair) (data : List UInt8)
    {fuel : ℕ} {hm : List UInt16} {s2 : List Int16}
    (hpoint : keccakHashToPointVartime K fuel
      (KeccakPrng.seeded K [detNonce K kp.privkey data, data]) 9 = some hm)
    (hs2 : signDyn (shake256InitPrngFromSeed perm (detNonce K kp.privkey data)) kp.polys hm 9 = some s2)
    (hs : SampledFor kp.h hm s2) :
    ∃ run, signCompressedKeccak K perm signDyn fuel kp.privkey data = some (.ok run) ∧
      verifyCompressedKeccak K fuel run.sig kp.pubkey data = some 0 ∧
        falconKeccakNonce run.sig = .ok (detNonce K kp.privkey data) ∧ falconKeccakS2Coeffs run.sig = .ok s2 := by
  obtain ⟨body, hbody, _⟩ := hs.exists_body
  have hfirst := (keccakHashToPointVartime_iff K [detNonce K kp.privkey data, data] 9 hm).1 ⟨fuel, hpoint⟩
  have hacc := hs.accepted (first_draws_rep hfirst) hbody
  have hsign := signCompressedKeccak_of_parts kp.privkey_eq hpoint hs2 hbody
  refine ⟨_, hsign, ?_, falconKeccakNonce_sig hsign, ?_⟩
  · exact verifyCompressedKeccak_of_parts ⟨_, length_detNonce K kp.privkey data⟩ hpoint hacc
  · exact falconKeccakS2Coeffs_of_parts ⟨_, length_detNonce K kp.privkey data⟩ hacc.body

/-- For every key pair and all data, if the sampler returns a short polynomial for the challenge that the signer has
hashed: the signature is accepted in the mode in which it has been made, conversion and the accessors return the
nonce and the polynomial. -/
theorem signed_verified_accessed {K : Keccak256} {perm : Lanes → Lanes}
    {signDyn : Shake256 → PrivatePolys → List UInt16 → ℕ → Option (List Int16)} (kp : KeyPair) (data : List UInt8)
    (beyond : ℕ → UInt8) {fuel fuel' : ℕ} {hm hm' : List UInt16} {s2 s2' : List Int16}
    (hpoint : hashToPointVartime perm fuel (Shake256.seeded perm [writeSalt 0, data]) 9 = some hm)
    (hs2 : signDyn (detRng perm kp.privkey data) kp.polys hm 9 = some s2) (hs : SampledFor kp.h hm s2)
    (hpoint' : keccakHashToPointVartime K fuel'
      (KeccakPrng.seeded K [detNonce K kp.privkey data, data]) 9 = some hm')
    (hs2' : signDyn (shake256InitPrngFromSeed perm (detNonce K kp.privkey data)) kp.polys hm' 9 = some s2')
    (hs' : SampledFor kp.h hm' s2') :
    (∃ sig, signCompressed perm signDyn fuel kp.privkey data = some (.ok sig) ∧
      verifyCompressed perm fuel sig kp.pubkey data = some 0 ∧
        ∃ ct : ByteVec 770, convertCompressedToCt beyond sig = .ok ct.1 ∧ s2Coeffs ct = .ok s2) ∧
    ∃ run, signCompressedKeccak K perm signDyn fuel' kp.privkey data = some (.ok run) ∧
      verifyCompressedKeccak K fuel' run.sig kp.pubkey data = some 0 ∧
        falconKeccakNonce run.sig = .ok (detNonce K kp.privkey data) ∧ falconKeccakS2Coeffs run.sig = .ok s2' :=
  ⟨signCompressed_roundTrip kp data beyond hpoint hs2 hs, signCompressedKeccak_roundTrip kp data hpoint' hs2' hs'⟩

/-- The key pair with `f = 1` and `h = 0`. -/
def unitKeyPair : KeyPair where
  privkey := unitPrivkey
  pubkey := zeroPubkey
  polys := ⟨1 :: List.replicate 511 0, List.replicate 512 0, List.replicate 512 0, List.replicate 512 0⟩
  h := List.replicate 512 0
  privkey_eq := decodePrivkey_unitPrivkey
  header := rfl
  pubkey_eq := modqDecode_zeroPubkey

/-- For the zero challenge every short polynomial is a signature under the zero key. -/
theorem sampledFor_zeroKey (s2 : ShortPoly) : SampledFor (List.replicate 512 0) (List.replicate 512 0) s2.coeffs where
  length := s2.length
  range := s2.range
  short := by
    have hc : ∀ u < 512, coeffPoly (List.replicate 512 0) u = 0 := by
      intro u hu
      rw [coeffPoly, rd_replicate hu]
      rfl
    have hs1 : ∀ u ∈ Finset.range 512, normSq (coeffPoly (List.replicate 512 0) u -
        mulMod 512 (fun e => ofInt16 (rd s2.coeffs e)) (coeffPoly (List.replicate 512 0)) u) = 0 := by
      intro u hu
      rw [hc u (Finset.mem_range.1 hu), mulMod_comm, mulMod_congr hc (fun _ _ => rfl), mulMod_zero_left, sub_zero]
      rfl
    rw [sigNorm, Finset.sum_eq_zero hs1, Nat.zero_add, ← sqNorm_eq_sum_normSq s2.length s2.range]
    exact s2.short

/-- Under the zero key and the zero hash the signature of every short polynomial is accepted. -/
theorem exists_verified_shortPoly (s2 : ShortPoly) (nonce : ByteVec 40) (data : List UInt8) : ∃ fuel body,
    compDecode 9 body = some (s2.coeffs, body.length) ∧
      verifyCompressedKeccak zeroHash fuel (0x39 :: (nonce.1 ++ body)) zeroPubkey data = some 0 := by
  obtain ⟨fuel, hpoint⟩ := keccakHashToPointVartime_zeroHash [nonce.1, data]
  obtain ⟨body, hbody, -⟩ := (sampledFor_zeroKey s2).exists_body
  have hfirst := (keccakHashToPointVartime_iff zeroHash [nonce.1, data] 9 _).1 ⟨fuel, hpoint⟩
  have hs : SampledFor unitKeyPair.h (List.replicate 512 0) s2.coeffs := sampledFor_zeroKey s2
  have hacc : Accepted unitKeyPair.pubkey.1 body (List.replicate 512 0) s2.coeffs unitKeyPair.h :=
    hs.accepted (first_draws_rep hfirst) hbody
  exact ⟨fuel, body, hacc.body, verifyCompressedKeccak_of_parts nonce hpoint hacc⟩

theorem signed_verified_accessed_widePoly :
    ∃ fuel fuel', (∃ sig, signCompressed zeroPerm (constSampler widePoly) fuel unitPrivkey [] = some (.ok sig) ∧
        verifyCompressed zeroPerm fuel sig zeroPubkey [] = some 0 ∧
        ∃ ct : ByteVec 770, convertCompressedToCt (fun _ => 0) sig = .ok ct.1 ∧ s2Coeffs ct = .ok widePoly.coeffs) ∧
      ∃ run, signCompressedKeccak zeroHash zeroPerm (constSampler widePoly) fuel' unitPrivkey [] = some (.ok run) ∧
        verifyCompressedKeccak zeroHash fuel' run.sig zeroPubkey [] = some 0 ∧
        falconKeccakNonce run.sig = .ok (detNonce zeroHash unitPrivkey []) ∧
          falconKeccakS2Coeffs run.sig = .ok widePoly.coeffs := by
  obtain ⟨fuel, hpoint⟩ := hashToPointVartime_zeroPerm [writeSalt 0, []]
  obtain ⟨fuel', hpoint'⟩ := keccakHashToPointVartime_zeroHash [detNonce zeroHash unitPrivkey [], []]
  exact ⟨fuel, fuel', signed_verified_accessed unitKeyPair [] (fun _ => 0) hpoint (constSampler_eq _ _ _ _ _)
    (sampledFor_zeroKey widePoly) hpoint' (constSampler_eq _ _ _ _ _) (sampledFor_zeroKey widePoly)⟩

end DfVrf
