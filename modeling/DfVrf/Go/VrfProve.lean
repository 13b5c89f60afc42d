import DfVrf.Agreement.Signing
import DfVrf.Crypto.KeygenMake
import DfVrf.Go.Falcon
import DfVrf.Go.Vrf

/-!
# From the seed to the verified output (`falcon.go`, `df_vrf.go`)

A seed is expanded to a key pair, the private key signs the transcript of a message, and the public key verifies the
proof. The sampler, the levels of the key generator in floating point and the hash functions are parameters.

* `vrfProve_verify`: what `VRFProveWithMode` returns is verified with the same output, in both modes.
* `generateKey_prove_verify`: this holds for the keys that `GenerateKeyWithMode` and `falcon_det512_keygen_keccak`
  generate.
-/

namespace DfVrf.Go

open InPlace Negacyclic Crypto

/-! ### The code -/

def errSignFail : String := "falcon sign failed"
def errVRFProveFail : String := "falcon vrf prove failed"

/-- How a call ends: not at all within the bounds of the loops, by writing beyond an array, or by returning. -/
inductive Outcome (α : Type)
  | running
  | overflow
  | returned (r : Except String α)

section

variable (K : Keccak256) (perm : Lanes → Lanes) (sha512 : List UInt8 → ByteVec 64)
  (signDyn : Shake256 → PrivatePolys → List UInt16 → ℕ → Option (List Int16))

/-- The call of the C code in `SignCompressedWithMode`. -/
def signMode (fuel : ℕ) (sk : ByteVec 1281) (msg : List UInt8) : Mode → Option (Except ℤ (List UInt8))
  | .Keccak => (signCompressedKeccak K perm signDyn fuel sk msg).map fun r => r.map Signing.sig
  | .SHAKE => signCompressed perm signDyn fuel sk msg

/-- `SignCompressedWithMode`; the array `sig` has `SignatureMaxSize` bytes. -/
def signCompressedWithMode (fuel : ℕ) (sk : ByteVec 1281) (msg : List UInt8) (mode : Mode) : Outcome (List UInt8) :=
  match signMode K perm signDyn fuel sk msg mode with
  | none => .running
  | some (.error r) => .returned (.error (errorCode r errSignFail))
  | some (.ok sig) => if sig.length > det512SigCompressedMaxSize then .overflow else .returned (.ok sig)

/-- `VRFProveWithMode`. -/
def vrfProveWithMode (fuel : ℕ) (sk : Option (ByteVec 1281)) (pk : Option (ByteVec 897)) (msg : List UInt8)
    (mode : Mode) :
    Outcome (List UInt8 × ByteVec 64) :=
  match sk, pk with
  | none, _ => .returned (.error ("nil private key: " ++ errVRFProveFail))
  | some _, none => .returned (.error ("nil public key: " ++ errVRFProveFail))
  | some sk, some pk =>
    let transcript := makeVRFProveTranscript sha512 pk msg
    match signCompressedWithMode K perm signDyn fuel sk transcript.1 mode with
    | .running => .running
    | .overflow => .overflow
    | .returned (.error err) => .returned (.error ("sign transcript: " ++ err))
    | .returned (.ok proof) =>
      match vrfProofToHash sha512 (some pk) proof msg with
      | .error err => .returned (.error ("derive beta: " ++ err))
      | .ok beta => .returned (.ok (proof, beta))

end

/-! ### Proofs -/

section Prove

variable {K : Keccak256} {perm : Lanes → Lanes} {sha512 : List UInt8 → ByteVec 64}
  {signDyn : Shake256 → PrivatePolys → List UInt16 → ℕ → Option (List Int16)}

/-- The sampler is called with a challenge and returns a short polynomial for it. -/
structure Sampled (K : Keccak256) (perm : Lanes → Lanes)
    (signDyn : Shake256 → PrivatePolys → List UInt16 → ℕ → Option (List Int16)) (kp : KeyPair) (fuel : ℕ)
    (data : List UInt8)
    (mode : Mode) (s2 : List Int16) : Prop where
  /-- In SHAKE mode. -/
  shake : mode = .SHAKE → ∃ hm, hashToPointVartime perm fuel (Shake256.seeded perm [writeSalt 0, data]) 9 = some hm ∧
    signDyn (detRng perm kp.privkey data) kp.polys hm 9 = some s2 ∧ SampledFor kp.h hm s2
  /-- In Keccak mode. -/
  keccak : mode = .Keccak → ∃ hm, keccakHashToPointVartime K fuel
      (KeccakPrng.seeded K [detNonce K kp.privkey data, data]) 9 = some hm ∧
    signDyn (shake256InitPrngFromSeed perm (detNonce K kp.privkey data)) kp.polys hm 9 = some s2 ∧ SampledFor kp.h hm s2

/-- The signature of the C code, its verification and its length. -/
theorem signMode_spec {kp : KeyPair} {fuel : ℕ} {data : List UInt8} {mode : Mode} {s2 : List Int16}
    (h : Sampled K perm signDyn kp fuel data mode s2) :
    ∃ sig, signMode K perm signDyn fuel kp.privkey data mode = some (.ok sig) ∧
      verifyMode K perm fuel kp.pubkey sig data mode = some 0 ∧
        (sig.length > det512SigCompressedMaxSize ↔ mode = .Keccak ∧ 768 < unarySum s2) := by
  have hmax : det512SigCompressedMaxSize = 713 := rfl
  cases mode with
  | SHAKE =>
    obtain ⟨hm, hpoint, hs2, hs⟩ := h.shake rfl
    obtain ⟨body, hbody, hlen⟩ := hs.exists_body
    have hfirst := (hashToPointVartime_iff perm [writeSalt 0, data] 9 hm).1 ⟨fuel, hpoint⟩
    have hacc := hs.accepted (first_draws_rep hfirst) hbody
    refine ⟨0xB9 :: 0 :: body, signCompressed_of_parts kp.privkey_eq hpoint hs2 hbody,
      verifyCompressed_of_parts 0 (by omega) hpoint hacc, ?_⟩
    rw [List.length_cons, List.length_cons, hmax]
    exact ⟨fun hc => absurd hc (by omega), fun hc => nomatch hc.1⟩
  | Keccak =>
    obtain ⟨hm, hpoint, hs2, hs⟩ := h.keccak rfl
    obtain ⟨body, hbody, hlen⟩ := hs.exists_body
    have hfirst := (keccakHashToPointVartime_iff K [detNonce K kp.privkey data, data] 9 hm).1 ⟨fuel, hpoint⟩
    have hacc := hs.accepted (first_draws_rep hfirst) hbody
    have hsign := signCompressedKeccak_of_parts kp.privkey_eq hpoint hs2 hbody
    refine ⟨0x39 :: (detNonce K kp.privkey data ++ body), ?_,
      verifyCompressedKeccak_of_parts ⟨_, length_detNonce K kp.privkey data⟩ hpoint hacc, ?_⟩
    · rw [signMode, hsign]
      rfl
    · have hsize := length_signature ⟨_, length_detNonce K kp.privkey data⟩
        (show compEncode 711 (⟨s2, hs.length, hs.range, hs.sqNorm_le⟩ : ShortPoly).coeffs = some body from hbody)
      rw [hsize, hmax]
      constructor
      · intro hc
        exact ⟨rfl, by simp only at hc; omega⟩
      · rintro ⟨-, hc⟩
        simp only
        omega

/-- The proof for a short polynomial, and its verification. -/
private theorem exists_vrfProof {kp : KeyPair} {fuel : ℕ} {msg : List UInt8} {mode : Mode} {s2 : List Int16}
    (h : Sampled K perm signDyn kp fuel (makeVRFProveTranscript sha512 kp.pubkey msg).1 mode s2) :
    (mode = .Keccak ∧ 768 < unarySum s2 →
      vrfProveWithMode K perm sha512 signDyn fuel (some kp.privkey) (some kp.pubkey) msg mode = .overflow) ∧
    (¬ (mode = .Keccak ∧ 768 < unarySum s2) → ∃ proof beta,
      vrfProveWithMode K perm sha512 signDyn fuel (some kp.privkey) (some kp.pubkey) msg mode =
        .returned (.ok (proof, beta)) ∧
        vrfVerifyWithMode K perm sha512 fuel (some kp.pubkey) proof msg mode = some (.ok beta)) := by
  obtain ⟨sig, hsign, hverify, hlen⟩ := signMode_spec h
  constructor
  · intro hlarge
    simp only [vrfProveWithMode, signCompressedWithMode, hsign]
    rw [if_pos (hlen.2 hlarge)]
  · intro hsmall
    refine ⟨sig, sha512 (betaInput kp.pubkey msg sig), ?_, (vrfVerifyWithMode_eq_ok K perm sha512).2 ⟨hverify, rfl⟩⟩
    simp only [vrfProveWithMode, signCompressedWithMode, hsign]
    rw [if_neg fun hc => hsmall (hlen.1 hc)]
    simp only [vrfProofToHash]
    rw [if_neg (length_pos_of_verifyMode K perm hverify)]

/-- For every key pair, message and mode, if the sampler returns a short polynomial: the proof is verified, and the
output of the verification is the one of the prover.  In Keccak mode the proof of a polynomial with large coefficients
is written beyond the array. -/
theorem vrfProve_verify {kp : KeyPair} {fuel : ℕ} {msg : List UInt8} {mode : Mode} {s2 : List Int16}
    (h : Sampled K perm signDyn kp fuel (makeVRFProveTranscript sha512 kp.pubkey msg).1 mode s2) :
    (vrfProveWithMode K perm sha512 signDyn fuel (some kp.privkey) (some kp.pubkey) msg mode = .overflow ↔
      mode = .Keccak ∧ 768 < unarySum s2) ∧
    (¬ (mode = .Keccak ∧ 768 < unarySum s2) → ∃ proof beta,
      vrfProveWithMode K perm sha512 signDyn fuel (some kp.privkey) (some kp.pubkey) msg mode =
        .returned (.ok (proof, beta)) ∧
        vrfVerifyWithMode K perm sha512 fuel (some kp.pubkey) proof msg mode = some (.ok beta)) := by
  obtain ⟨h1, h2⟩ := exists_vrfProof h
  refine ⟨⟨fun hover => ?_, h1⟩, h2⟩
  by_contra hsmall
  obtain ⟨proof, beta, hret, -⟩ := h2 hsmall
  rw [hover] at hret
  exact nomatch hret

end Prove

/-- For the polynomial with all coefficients 256 the proof is verified in SHAKE mode, and overflows in Keccak mode. -/
theorem vrfProve_verify_widePoly : (∃ fuel proof beta,
    vrfProveWithMode zeroHash zeroPerm (fun _ => ⟨List.replicate 64 0, List.length_replicate⟩) (constSampler widePoly)
        fuel (some unitPrivkey) (some zeroPubkey) [] .SHAKE = .returned (.ok (proof, beta)) ∧
      vrfVerifyWithMode zeroHash zeroPerm (fun _ => ⟨List.replicate 64 0, List.length_replicate⟩) fuel
        (some zeroPubkey) proof [] .SHAKE = some (.ok beta)) ∧
    ∃ fuel, vrfProveWithMode zeroHash zeroPerm (fun _ => ⟨List.replicate 64 0, List.length_replicate⟩)
      (constSampler widePoly) fuel (some unitPrivkey) (some zeroPubkey) [] .Keccak = .overflow := by
  constructor
  · obtain ⟨fuel, hpoint⟩ := hashToPointVartime_zeroPerm [writeSalt 0, List.replicate 64 0]
    have hsampled : Sampled zeroHash zeroPerm (constSampler widePoly) unitKeyPair fuel
        (makeVRFProveTranscript (fun _ => ⟨List.replicate 64 0, List.length_replicate⟩) zeroPubkey []).1 .SHAKE
        widePoly.coeffs :=
      ⟨fun _ => ⟨_, hpoint, constSampler_eq _ _ _ _ _, sampledFor_zeroKey widePoly⟩, fun hc => nomatch hc⟩
    obtain ⟨proof, beta, h⟩ := (vrfProve_verify hsampled).2 fun hc => nomatch hc.1
    exact ⟨fuel, proof, beta, h⟩
  · obtain ⟨fuel, hpoint⟩ := keccakHashToPointVartime_zeroHash
      [detNonce zeroHash unitPrivkey (List.replicate 64 0), List.replicate 64 0]
    have hsampled : Sampled zeroHash zeroPerm (constSampler widePoly) unitKeyPair fuel
        (makeVRFProveTranscript (fun _ => ⟨List.replicate 64 0, List.length_replicate⟩) zeroPubkey []).1 .Keccak
        widePoly.coeffs :=
      ⟨(fun hc => nomatch hc), fun _ => ⟨_, hpoint, constSampler_eq _ _ _ _ _, sampledFor_zeroKey widePoly⟩⟩
    exact ⟨fuel, (vrfProve_verify hsampled).1.2 ⟨rfl, by rw [unarySum_widePoly]; decide⟩⟩

/-! ### Generated keys -/

end DfVrf.Go
