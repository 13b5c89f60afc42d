import DfVrf.Crypto.Encoder
import DfVrf.Crypto.Sign

/-!
# What the Keccak-256 mode hashes and what it publishes

The generator refuses an input that does not fit its buffer of 4096 bytes, and its callers ignore the refusal.  So
the challenge, the nonce and the seed of the key generator depend on all of their inputs only up to a length
(`keccakMode_preimages`).  The nonce, which every signature contains, seeds the sampler (`rngSeed_published`).
-/

namespace DfVrf

open InPlace Crypto KeccakPrng

/-- `hm` is the polynomial to which the preimage is hashed. -/
def HashesTo (K : Keccak256) (preimage : List UInt8) (hm : List UInt16) : Prop :=
  Sampling.First (fun j => (draws (keystream K (K preimage)) j).map UInt16.ofNat) 512 hm

/-- The challenge is drawn from the hash of what the buffer holds. -/
private theorem challenge_iff_hashesTo (K : Keccak256) (nonce data : List UInt8) (hm : List UInt16) :
    (∃ fuel, keccakHashToPointVartime K fuel (seeded K [nonce, data]) 9 = some hm) ↔
      HashesTo K (challengeInput nonce data).buffer hm := by
  have hbuf : (challengeInput nonce data).buffer = absorbed [] [nonce, data] := buffer_injectAll [nonce, data]
  rw [hbuf]
  exact keccakHashToPointVartime_iff K [nonce, data] 9 hm

/-- The challenge that is verified. -/
theorem verified_iff (K : Keccak256) (sig : List UInt8) (pubkey : ByteVec 897) (data : List UInt8) :
    (∃ fuel, verifyCompressedKeccak K fuel sig pubkey data = some 0) ↔
      41 ≤ sig.length ∧ rd sig 0 = 0x39 ∧ ∃ hm s2 h,
        HashesTo K (challengeInput ((sig.drop 1).take 40) data).buffer hm ∧
          Accepted pubkey.1 (sig.drop 41) hm s2 h := by
  constructor
  · rintro ⟨fuel, hv⟩
    obtain ⟨hlen, hhead, hm, s2, h, hpoint, hacc⟩ := (verifyCompressedKeccak_eq_zero K fuel sig pubkey data).1 hv
    exact ⟨hlen, hhead, hm, s2, h, (challenge_iff_hashesTo K _ data hm).1 ⟨fuel, hpoint⟩, hacc⟩
  · rintro ⟨hlen, hhead, hm, s2, h, hpoint, hacc⟩
    obtain ⟨fuel, hpoint⟩ := (challenge_iff_hashesTo K _ data hm).2 hpoint
    exact ⟨fuel, (verifyCompressedKeccak_eq_zero K fuel sig pubkey data).2 ⟨hlen, hhead, hm, s2, h, hpoint, hacc⟩⟩

/-- The challenge that is signed. -/
theorem signed_iff (K : Keccak256) (perm : Lanes → Lanes)
    (signDyn : Shake256 → PrivatePolys → List UInt16 → ℕ → Option (List Int16)) (privkey : ByteVec 1281)
    (data : List UInt8) (run : Signing) :
    (∃ fuel, signCompressedKeccak K perm signDyn fuel privkey data = some (.ok run)) ↔
      run.rngSeed = detNonce K privkey data ∧ ∃ sk hm sv body, decodePrivkey privkey = .ok sk ∧
        HashesTo K (challengeInput run.rngSeed data).buffer hm ∧
          signDyn (shake256InitPrngFromSeed perm run.rngSeed) sk hm 9 = some sv ∧ compEncode 711 sv = some body ∧
            run.sig = 0x39 :: (run.rngSeed ++ body) := by
  constructor
  · rintro ⟨fuel, hs⟩
    obtain ⟨hseed, sk, hm, sv, body, hsk, hpoint, hrest⟩ := signCompressedKeccak_eq_ok.1 hs
    exact ⟨hseed, sk, hm, sv, body, hsk, (challenge_iff_hashesTo K _ data hm).1 ⟨fuel, hpoint⟩, hrest⟩
  · rintro ⟨hseed, sk, hm, sv, body, hsk, hpoint, hrest⟩
    obtain ⟨fuel, hpoint⟩ := (challenge_iff_hashesTo K _ data hm).2 hpoint
    exact ⟨fuel, signCompressedKeccak_eq_ok.2 ⟨hseed, sk, hm, sv, body, hsk, hpoint, hrest⟩⟩

/-! ### The inputs of the generator -/

private theorem buffer_challengeInput (nonce : ByteVec 40) (data : List UInt8) :
    (challengeInput nonce.1 data).buffer = nonce.1 ++ hashedPart 40 data := by
  have hflat : [nonce.1].flatten = nonce.1 := by simp
  have hbuf : (challengeInput nonce.1 data).buffer = absorbed [] ([nonce.1] ++ [data]) :=
    buffer_injectAll [nonce.1, data]
  rw [hbuf, absorbed_last (by rw [hflat, nonce.2, maxBufferSize]; omega), hflat, nonce.2]

private theorem buffer_nonceInput (privkey : ByteVec 1281) (data : List UInt8) :
    (nonceInput privkey data).buffer = rd privkey.1 0 :: (privkey.1 ++ hashedPart 1282 data) := by
  have hflat : [[rd privkey.1 0], privkey.1].flatten = rd privkey.1 0 :: privkey.1 := by simp
  have hlen : (rd privkey.1 0 :: privkey.1).length = 1282 := by rw [List.length_cons, privkey.2]
  have hbuf : (nonceInput privkey data).buffer = absorbed [] ([[rd privkey.1 0], privkey.1] ++ [data]) :=
    buffer_injectAll [[rd privkey.1 0], privkey.1, data]
  rw [hbuf, absorbed_last (by rw [hflat, hlen, maxBufferSize]; omega), hflat, hlen, List.cons_append]

private theorem buffer_keygenInput (seed : List UInt8) : (keygenInput seed).buffer = hashedPart 0 seed := by
  have hbuf : (keygenInput seed).buffer = absorbed [] ([] ++ [seed]) := by
    rw [keygenInput_eq, buffer_injectAll, List.nil_append]
  rw [hbuf, absorbed_last (Nat.zero_le _)]
  rfl

theorem challengeInput_complete_iff (nonce : ByteVec 40) (data : List UInt8) :
    (challengeInput nonce.1 data).buffer = nonce.1 ++ data ↔ data.length ≤ 4056 := by
  rw [buffer_challengeInput, List.append_cancel_left_eq, hashedPart_eq_iff (by rw [maxBufferSize]; omega),
    maxBufferSize]
  omega

theorem challengeInput_injective_iff (nonce : ByteVec 40) (data data' : List UInt8) :
    ((challengeInput nonce.1 data).buffer = (challengeInput nonce.1 data').buffer → data = data') ↔
      data = data' ∨ Kept 40 data ∨ Kept 40 data' := by
  rw [buffer_challengeInput, buffer_challengeInput, List.append_cancel_left_eq, hashedPart_injective_iff]

theorem nonceInput_complete_iff (privkey : ByteVec 1281) (data : List UInt8) :
    (nonceInput privkey data).buffer = rd privkey.1 0 :: (privkey.1 ++ data) ↔ data.length ≤ 2814 := by
  rw [buffer_nonceInput, List.cons_eq_cons, eq_self, true_and, List.append_cancel_left_eq,
    hashedPart_eq_iff (by rw [maxBufferSize]; omega), maxBufferSize]
  omega

theorem nonceInput_injective_iff (privkey : ByteVec 1281) (data data' : List UInt8) :
    ((nonceInput privkey data).buffer = (nonceInput privkey data').buffer → data = data') ↔
      data = data' ∨ Kept 1282 data ∨ Kept 1282 data' := by
  rw [buffer_nonceInput, buffer_nonceInput, List.cons_eq_cons, eq_self, true_and, List.append_cancel_left_eq,
    hashedPart_injective_iff]

theorem keygenInput_complete_iff (seed : List UInt8) : (keygenInput seed).buffer = seed ↔ seed.length ≤ 4096 := by
  rw [buffer_keygenInput, hashedPart_eq_iff (Nat.zero_le _), Nat.zero_add, maxBufferSize]

theorem keygenInput_injective_iff (seed seed' : List UInt8) :
    ((keygenInput seed).buffer = (keygenInput seed').buffer → seed = seed') ↔
      seed = seed' ∨ Kept 0 seed ∨ Kept 0 seed' := by
  rw [buffer_keygenInput, buffer_keygenInput, hashedPart_injective_iff]

/-- Verification depends on the data through what the buffer holds. -/
private theorem verifyCompressedKeccak_congr (K : Keccak256) (fuel : ℕ) (sig : List UInt8) (pubkey : ByteVec 897)
    {data data' : List UInt8}
    (h : challengeInput ((sig.drop 1).take 40) data = challengeInput ((sig.drop 1).take 40) data') :
    verifyCompressedKeccak K fuel sig pubkey data = verifyCompressedKeccak K fuel sig pubkey data' := by
  simp only [verifyCompressedKeccak, h]

/-- The challenge that is verified and signed, the nonce and the seed of the key generator are derived from what the
buffer holds.  This is the complete input exactly up to a length of the data or of the seed input, and two inputs
are hashed from different preimages unless neither of them is hashed. -/
theorem keccakMode_preimages (K : Keccak256) (perm : Lanes → Lanes)
    (signDyn : Shake256 → PrivatePolys → List UInt16 → ℕ → Option (List Int16)) (sig : List UInt8)
    (pubkey : ByteVec 897) (nonce : ByteVec 40) (privkey : ByteVec 1281) (data data' seed seed' : List UInt8) :
    (((∃ fuel, verifyCompressedKeccak K fuel sig pubkey data = some 0) ↔
        41 ≤ sig.length ∧ rd sig 0 = 0x39 ∧ ∃ hm s2 h,
          HashesTo K (challengeInput ((sig.drop 1).take 40) data).buffer hm ∧
            Accepted pubkey.1 (sig.drop 41) hm s2 h) ∧
      (∀ run, (∃ fuel, signCompressedKeccak K perm signDyn fuel privkey data = some (.ok run)) ↔
        run.rngSeed = detNonce K privkey data ∧ ∃ sk hm sv body, decodePrivkey privkey = .ok sk ∧
          HashesTo K (challengeInput run.rngSeed data).buffer hm ∧
            signDyn (shake256InitPrngFromSeed perm run.rngSeed) sk hm 9 = some sv ∧ compEncode 711 sv = some body ∧
              run.sig = 0x39 :: (run.rngSeed ++ body)) ∧
      ((challengeInput nonce.1 data).buffer = nonce.1 ++ data ↔ data.length ≤ 4056) ∧
      (((challengeInput nonce.1 data).buffer = (challengeInput nonce.1 data').buffer → data = data') ↔
        data = data' ∨ Kept 40 data ∨ Kept 40 data')) ∧
    (detNonce K privkey data = (List.range 40).map (keystream K (K (nonceInput privkey data).buffer)) ∧
      ((nonceInput privkey data).buffer = rd privkey.1 0 :: (privkey.1 ++ data) ↔ data.length ≤ 2814) ∧
      (((nonceInput privkey data).buffer = (nonceInput privkey data').buffer → data = data') ↔
        data = data' ∨ Kept 1282 data ∨ Kept 1282 data')) ∧
    (keygenSeed K seed = (List.range 48).map (keystream K (K (keygenInput seed).buffer)) ∧
      ((keygenInput seed).buffer = seed ↔ seed.length ≤ 4096) ∧
      (((keygenInput seed).buffer = (keygenInput seed').buffer → seed = seed') ↔
        seed = seed' ∨ Kept 0 seed ∨ Kept 0 seed')) :=
  ⟨⟨verified_iff K sig pubkey data, signed_iff K perm signDyn privkey data, challengeInput_complete_iff nonce data,
      challengeInput_injective_iff nonce data data'⟩,
    ⟨detNonce_eq K privkey data, nonceInput_complete_iff privkey data, nonceInput_injective_iff privkey data data'⟩,
    ⟨keygenSeed_eq K seed, keygenInput_complete_iff seed, keygenInput_injective_iff seed seed'⟩⟩

/-- A signature of 4057 zeros is accepted for 4057 ones as well, since neither is hashed. -/
theorem keccakMode_drops_data :
    (challengeInput (List.replicate 40 0) (List.replicate 4057 0)).buffer ≠
      List.replicate 40 0 ++ List.replicate 4057 0 ∧
    (∃ fuel, verifyCompressedKeccak zeroHash fuel (0x39 :: (List.replicate 40 0 ++ zeroBody)) zeroPubkey
      (List.replicate 4057 0) = some 0) ∧
    ∀ K fuel, verifyCompressedKeccak K fuel (0x39 :: (List.replicate 40 0 ++ zeroBody)) zeroPubkey
      (List.replicate 4057 0) = verifyCompressedKeccak K fuel (0x39 :: (List.replicate 40 0 ++ zeroBody)) zeroPubkey
        (List.replicate 4057 1) := by
  have hn : (List.replicate 40 (0 : UInt8)).length = 40 := List.length_replicate
  refine ⟨?_, verifyCompressedKeccak_zero ⟨_, hn⟩ _, ?_⟩
  · rw [ne_eq, challengeInput_complete_iff ⟨_, hn⟩, List.length_replicate]
    omega
  · intro K fuel
    apply verifyCompressedKeccak_congr
    rw [List.drop_succ_cons, List.drop_zero, List.take_left' hn]
    have hbuf : (init.inject (List.replicate 40 0)).2.buffer.length = 40 := rfl
    have hover : ∀ b : UInt8, challengeInput (List.replicate 40 0) (List.replicate 4057 b) =
        (init.inject (List.replicate 40 0)).2 := by
      intro b
      have hlt : maxBufferSize < (init.inject (List.replicate 40 0)).2.buffer.length +
          (List.replicate 4057 b).length := by
        rw [hbuf, List.length_replicate, maxBufferSize]
        omega
      have hreject := congrArg Prod.snd (inject_of_lt rfl hlt)
      exact hreject
    rw [hover, hover]

/-! ### The seed of the sampler -/

/-- What an observer of the public values computes. -/
def recoverSeed (_pubkey : ByteVec 897) (_data sig : List UInt8) : List UInt8 :=
  match falconKeccakNonce sig with
  | .ok nonce => nonce
  | .error _ => []

private theorem recoverSeed_eq {pubkey : ByteVec 897} {data sig nonce : List UInt8}
    (h : falconKeccakNonce sig = .ok nonce) :
    recoverSeed pubkey data sig = nonce := by
  rw [recoverSeed, h]

/-- In every run of the signer the seed of the sampler is a function of the signature. -/
theorem rngSeed_published {K : Keccak256} {perm : Lanes → Lanes}
    {signDyn : Shake256 → PrivatePolys → List UInt16 → ℕ → Option (List Int16)} {fuel : ℕ}
    {privkey : ByteVec 1281} {data : List UInt8} {run : Signing} (pubkey : ByteVec 897)
    (h : signCompressedKeccak K perm signDyn fuel privkey data = some (.ok run)) :
    recoverSeed pubkey data run.sig = run.rngSeed :=
  recoverSeed_eq (falconKeccakNonce_sig h)

/-- The sampler that returns the zero polynomial. -/
def zeroSampler (_ : Shake256) (_ : PrivatePolys) (_ : List UInt16) (_ : ℕ) : Option (List Int16) :=
  some (List.replicate 512 0)

/-- A hash function that copies the third byte of its input. -/
def copyHash : Keccak256 := fun bs => ⟨List.replicate 32 (rd bs 2), List.length_replicate⟩

private theorem keystream_copyHash (bs : List UInt8) (p : ℕ) : keystream copyHash (copyHash bs) p = rd bs 2 := by
  have hp := Nat.mod_lt p (show 0 < 32 by omega)
  rw [keystream, copyHash, rd_replicate hp]
  rfl

private theorem detNonce_copyHash {privkey : ByteVec 1281} {data : List UInt8} (hl : data.length ≤ 2814) :
    detNonce copyHash privkey data = List.replicate 40 (rd privkey.1 1) := by
  have hthird : ∀ b c : UInt8, ∀ bs : List UInt8, rd (b :: c :: bs) 2 = rd bs 0 := fun _ _ _ => rfl
  have hkey : rd (rd privkey.1 0 :: (privkey.1 ++ data)) 2 = rd privkey.1 1 :=
    rd_append_left _ (show 1 < privkey.1.length by rw [privkey.2]; omega)
  have hstream : keystream copyHash (copyHash (rd privkey.1 0 :: (privkey.1 ++ data))) = fun _ => rd privkey.1 1 :=
    funext fun p => (keystream_copyHash _ p).trans hkey
  rw [detNonce_eq, (nonceInput_complete_iff privkey data).2 hl, hstream, List.map_const', List.length_range]

/-- A run of the signer on the private key `f = 1`, `g = F = 0`. -/
private theorem exists_signing_unit : ∃ fuel run,
    signCompressedKeccak copyHash zeroPerm zeroSampler fuel unitPrivkey (List.replicate 64 1) = some (.ok run) ∧
      run.rngSeed = List.replicate 40 0x04 := by
  have hnonce : detNonce copyHash unitPrivkey (List.replicate 64 1) = List.replicate 40 0x04 :=
    detNonce_copyHash (by rw [List.length_replicate]; omega)
  obtain ⟨fuel, hp⟩ : ∃ fuel, keccakHashToPointVartime copyHash fuel
      (seeded copyHash [List.replicate 40 0x04, List.replicate 64 1]) 9 = some (List.replicate 512 1028) := by
    rw [keccakHashToPointVartime_iff]
    refine Sampling.first_const (fun j => ?_) (2 ^ 9)
    have habs : rd (absorbed [] [List.replicate 40 0x04, List.replicate 64 1]) 2 = 0x04 := by
      rw [absorbed_eq_append (by simp [maxBufferSize])]
      rfl
    rw [draws, sampleAt, keystream_copyHash, keystream_copyHash, habs]
    simp [acceptSample]
  obtain ⟨body, hbody⟩ : ∃ body, compEncode 711 (List.replicate 512 0) = some body := by
    refine compEncode_complete ?_ ?_
    · intro x hx
      rw [List.eq_of_mem_replicate hx]
      decide
    · rw [← ofBytes_zeroBody, Bits.length_ofBytes, length_zeroBody]
      omega
  exact ⟨fuel, ⟨List.replicate 40 0x04, 0x39 :: (List.replicate 40 0x04 ++ body)⟩, signCompressedKeccak_eq_ok.2
    ⟨hnonce.symm, _, _, _, body, decodePrivkey_unitPrivkey, hp, rfl, hbody, rfl⟩, rfl⟩

theorem rngSeed_published_unit : ∃ fuel run,
    signCompressedKeccak copyHash zeroPerm zeroSampler fuel unitPrivkey (List.replicate 64 1) = some (.ok run) ∧
      recoverSeed zeroPubkey (List.replicate 64 1) run.sig = run.rngSeed := by
  obtain ⟨fuel, run, h, _⟩ := exists_signing_unit
  exact ⟨fuel, run, h, rngSeed_published zeroPubkey h⟩

/-- One function of the public values reproduces the seed for every private key and every data, and there are
runs. -/
theorem exists_recover_rngSeed : ∃ recover : ByteVec 897 → List UInt8 → List UInt8 → List UInt8,
    (∀ (K : Keccak256) (perm : Lanes → Lanes)
      (signDyn : Shake256 → PrivatePolys → List UInt16 → ℕ → Option (List Int16)) (fuel : ℕ)
      (privkey : ByteVec 1281) (pubkey : ByteVec 897) (data : List UInt8) (run : Signing),
      signCompressedKeccak K perm signDyn fuel privkey data = some (.ok run) →
        recover pubkey data run.sig = run.rngSeed) ∧
    ∃ fuel run,
      signCompressedKeccak copyHash zeroPerm zeroSampler fuel unitPrivkey (List.replicate 64 1) = some (.ok run) ∧
        recover zeroPubkey (List.replicate 64 1) run.sig = List.replicate 40 0x04 := by
  refine ⟨recoverSeed, ?_, ?_⟩
  · intro K perm signDyn fuel privkey pubkey data run h
    exact recoverSeed_eq (falconKeccakNonce_sig h)
  · obtain ⟨fuel, run, h, hseed⟩ := exists_signing_unit
    exact ⟨fuel, run, h, by rw [recoverSeed_eq (falconKeccakNonce_sig h), hseed]⟩

end DfVrf
