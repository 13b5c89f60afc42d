import DfVrf.Crypto.Deterministic
import DfVrf.Crypto.PrivateKey

/-!
# Key generation and signing in Keccak-256 mode (`deterministic.c`)

Both derive their randomness from the Keccak-256 generator: the seed of the key generator from the input of the
caller, the nonce of a signature from the private key and the data.  The key generator `falcon_keygen_make` and the
sampler `sign_dyn`, which work with floating-point numbers, are parameters; both take the SHAKE256 generator that
drives them.

* `length_detNonce`: the nonce always has 40 bytes, whatever part of the inputs has been hashed.
* `signCompressedKeccak_eq_ok`: the parts of a signature.
-/

namespace DfVrf.Crypto

open InPlace Negacyclic

/-- `shake256_init_prng_from_seed`. -/
def shake256InitPrngFromSeed (perm : Lanes → Lanes) (seed : List UInt8) : Shake256 :=
  Shake256.flip (Shake256.inject perm Shake256.init seed)

/-- The generator of `falcon_det512_keygen_keccak` before `flip`. -/
def keygenInput (seedInput : List UInt8) : KeccakPrng :=
  let kc := KeccakPrng.init
  if seedInput.length > 0 then (kc.inject seedInput).2 else kc

/-- `seed48` in `falcon_det512_keygen_keccak`. -/
def keygenSeed (K : Keccak256) (seedInput : List UInt8) : List UInt8 :=
  let kc := ((keygenInput seedInput).flip K).2
  (kc.extract K 48).2.2

/-- The generator of the nonce before `flip`. -/
def nonceInput (privkey : ByteVec 1281) (data : List UInt8) : KeccakPrng :=
  let hkc := KeccakPrng.init
  let hkc := (hkc.inject [rd privkey.1 0]).2
  let hkc := (hkc.inject privkey.1).2
  (hkc.inject data).2

/-- The nonce of a signature. -/
def detNonce (K : Keccak256) (privkey : ByteVec 1281) (data : List UInt8) : List UInt8 :=
  let hkc := ((nonceInput privkey data).flip K).2
  (hkc.extract K 40).2.2

/-- The private key: `f`, `g`, `F` and `G`. -/
structure PrivatePolys where
  f : List Int8
  g : List Int8
  F : List Int8
  G : List Int8

/-- The decoding of the private key in `falcon_det512_sign_compressed_keccak`. -/
def decodePrivkey (privkey : ByteVec 1281) : Except ℤ PrivatePolys :=
  let sk := privkey.1
  if rd sk 0 &&& 0xF0 ≠ 0x50 then .error errFormat
  else
    let logn := (rd sk 0 &&& 0x0F).toNat
    if logn < 1 ∨ logn > 10 then .error errFormat
    else if logn ≠ det512Logn then .error errFormat
    else
      let u := 1
      match trimI8Decode logn (rd maxFgBits logn) (sk.drop u) with
      | none => .error errFormat
      | some (f, v) =>
        let u := u + v
        match trimI8Decode logn (rd maxFgBits logn) (sk.drop u) with
        | none => .error errFormat
        | some (g, v) =>
          let u := u + v
          match trimI8Decode logn (rd maxFGBits logn) (sk.drop u) with
          | none => .error errFormat
          | some (F, v) =>
            let u := u + v
            if u ≠ 1281 then .error errFormat
            else
              match completePrivate f g F logn with
              | none => .error errFormat
              | some G => .ok ⟨f, g, F, G⟩

/-- A run of `falcon_det512_sign_compressed_keccak`: the seed passed to `shake256_init_prng_from_seed` and the
signature. -/
structure Signing where
  rngSeed : List UInt8
  sig : List UInt8

/-- `falcon_det512_sign_compressed_keccak`; `none` means that the sampling of the challenge or of the signature has
not ended. -/
def signCompressedKeccak (K : Keccak256) (perm : Lanes → Lanes)
    (signDyn : Shake256 → PrivatePolys → List UInt16 → ℕ → Option (List Int16)) (fuel : ℕ) (privkey : ByteVec 1281)
    (data : List UInt8) : Option (Except ℤ Signing) :=
  match decodePrivkey privkey with
  | .error r => some (.error r)
  | .ok sk =>
    let logn := det512Logn
    let nonce := detNonce K privkey data
    let hkc := ((challengeInput nonce data).flip K).2
    match keccakHashToPointVartime K fuel hkc logn with
    | none => none
    | some hm =>
      let rng := shake256InitPrngFromSeed perm nonce
      match signDyn rng sk hm logn with
      | none => none
      | some sv =>
        let esLen := sigCompressedMaxSize det512Logn
        match compEncode (esLen - 41) sv with
        | none => some (.error errSize)
        | some body => some (.ok ⟨nonce, UInt8.ofNat (0x30 + logn) :: (nonce ++ body)⟩)

/-! ### The parts of a signature -/

/-- The output of a generator that has just been seeded. -/
private theorem extract_seeded (K : Keccak256) (inputs : List (List UInt8)) (len : ℕ) :
    ((KeccakPrng.flip K (KeccakPrng.injectAll KeccakPrng.init inputs)).2.extract K len).2.2 =
      (List.range len).map (KeccakPrng.keystream K (K (KeccakPrng.injectAll KeccakPrng.init inputs).buffer)) := by
  obtain ⟨_, _, h⟩ := KeccakPrng.extract_spec (KeccakPrng.atPos_seeded K inputs) len
  rw [KeccakPrng.seeded] at h
  rw [h, KeccakPrng.injectAll_eq rfl, List.range_eq_range']
  rfl

theorem detNonce_eq (K : Keccak256) (privkey : ByteVec 1281) (data : List UInt8) : detNonce K privkey data =
    (List.range 40).map (KeccakPrng.keystream K (K (nonceInput privkey data).buffer)) :=
  extract_seeded K [[rd privkey.1 0], privkey.1, data] 40

theorem length_detNonce (K : Keccak256) (privkey : ByteVec 1281) (data : List UInt8) :
    (detNonce K privkey data).length = 40 := by
  rw [detNonce_eq, List.length_map, List.length_range]

/-- An empty input leaves the generator as it is, whether it is injected or not. -/
theorem keygenInput_eq (seedInput : List UInt8) :
    keygenInput seedInput = KeccakPrng.injectAll KeccakPrng.init [seedInput] := by
  rw [keygenInput]
  split
  · rfl
  · rename_i h
    rw [List.eq_nil_of_length_eq_zero (show seedInput.length = 0 by omega)]
    rfl

theorem keygenSeed_eq (K : Keccak256) (seedInput : List UInt8) : keygenSeed K seedInput =
    (List.range 48).map (KeccakPrng.keystream K (K (keygenInput seedInput).buffer)) := by
  rw [keygenSeed, keygenInput_eq]
  exact extract_seeded K [seedInput] 48

/-- A signature consists of the header, the nonce and the encoding of a polynomial that the sampler has returned for
the challenge drawn from the nonce and the data. -/
theorem signCompressedKeccak_eq_ok {K : Keccak256} {perm : Lanes → Lanes}
    {signDyn : Shake256 → PrivatePolys → List UInt16 → ℕ → Option (List Int16)} {fuel : ℕ}
    {privkey : ByteVec 1281} {data : List UInt8} {run : Signing} :
    signCompressedKeccak K perm signDyn fuel privkey data = some (.ok run) ↔
      run.rngSeed = detNonce K privkey data ∧ ∃ sk hm sv body, decodePrivkey privkey = .ok sk ∧
        keccakHashToPointVartime K fuel (KeccakPrng.seeded K [run.rngSeed, data]) 9 = some hm ∧
          signDyn (shake256InitPrngFromSeed perm run.rngSeed) sk hm 9 = some sv ∧ compEncode 711 sv = some body ∧
            run.sig = 0x39 :: (run.rngSeed ++ body) := by
  rw [signCompressedKeccak]
  constructor
  · intro h
    split at h
    · exact absurd h (by simp)
    · rename_i sk hsk
      simp only at h
      split at h
      · exact absurd h (by simp)
      · rename_i hm hpoint
        split at h
        · exact absurd h (by simp)
        · rename_i sv hsv
          split at h
          · exact absurd h (by simp)
          · rename_i body hbody
            obtain rfl : _ = run := by simpa using h
            exact ⟨rfl, sk, hm, sv, body, hsk, hpoint, hsv, hbody, rfl⟩
  · rintro ⟨hseed, sk, hm, sv, body, hsk, hpoint, hsv, hbody, hsig⟩
    rw [hseed] at hpoint hsv hsig
    have hmax : sigCompressedMaxSize det512Logn - 41 = 711 := rfl
    have hpoint' : keccakHashToPointVartime K fuel
        ((challengeInput (detNonce K privkey data) data).flip K).2 det512Logn = some hm := hpoint
    have hsv' : signDyn (shake256InitPrngFromSeed perm (detNonce K privkey data)) sk hm det512Logn = some sv := hsv
    simp only [hsk, hpoint', hsv', hmax, hbody]
    cases run
    simp only at hseed hsig
    rw [hseed, hsig]
    rfl

/-- The nonce in a signature is the seed of the sampler. -/
theorem falconKeccakNonce_sig {K : Keccak256} {perm : Lanes → Lanes}
    {signDyn : Shake256 → PrivatePolys → List UInt16 → ℕ → Option (List Int16)} {fuel : ℕ}
    {privkey : ByteVec 1281} {data : List UInt8} {run : Signing}
    (h : signCompressedKeccak K perm signDyn fuel privkey data = some (.ok run)) :
    falconKeccakNonce run.sig = .ok run.rngSeed := by
  obtain ⟨hseed, _, _, _, body, _, _, _, _, hsig⟩ := signCompressedKeccak_eq_ok.1 h
  have hlen : run.rngSeed.length = 40 := by rw [hseed, length_detNonce]
  rw [falconKeccakNonce, if_neg (by rw [hsig, List.length_cons, List.length_append]; omega), hsig,
    List.drop_succ_cons, List.drop_zero, List.take_left' hlen]

/-- A private key of degree 512 from its three encoded polynomials. -/
private theorem decodePrivkey_of_parts {privkey : ByteVec 1281} {f g F G : List Int8} (hhead : rd privkey.1 0 = 0x59)
    (hf : trimI8Decode 9 6 (privkey.1.drop 1) = some (f, 384))
    (hg : trimI8Decode 9 6 (privkey.1.drop 385) = some (g, 384))
    (hF : trimI8Decode 9 8 (privkey.1.drop 769) = some (F, 512)) (hG : completePrivate f g F 9 = some G) :
    decodePrivkey privkey = .ok ⟨f, g, F, G⟩ := by
  have hlogn : ((0x59 : UInt8) &&& 0x0F).toNat = 9 := rfl
  have hfg : rd maxFgBits 9 = 6 := rfl
  have hFG : rd maxFGBits 9 = 8 := rfl
  rw [decodePrivkey, hhead]
  simp only [hlogn, hfg, hFG, hf, hg, hF, hG, Nat.reduceAdd]
  rfl

/-! ### A private key -/

/-- The encoding of `f = 1`, `g = 0` and `F = 0`. -/
def unitPrivkey : ByteVec 1281 :=
  ⟨0x59 :: ((0x04 :: List.replicate 383 0) ++ (List.replicate 384 0 ++ List.replicate 512 0)), by
    simp only [List.length_cons, List.length_append, List.length_replicate]⟩

private theorem rd_unit (x : Int8) {e : ℕ} (he : e < 512) (h0 : e ≠ 0) : rd (x :: List.replicate 511 0) e = 0 := by
  obtain ⟨k, rfl⟩ := Nat.exists_eq_succ_of_ne_zero h0
  have htail : rd (List.replicate 511 (0 : Int8)) k = 0 := rd_replicate (by omega) 0
  exact htail

private theorem length_zeroPolynomial : (List.replicate 512 (0 : Int8)).length = 2 ^ 9 := List.length_replicate

private theorem length_unit : (1 :: List.replicate 511 (0 : Int8)).length = 2 ^ 9 := by
  rw [List.length_cons, List.length_replicate]
  rfl

private theorem completePrivate_unit : completePrivate (1 :: List.replicate 511 0) (List.replicate 512 0)
    (List.replicate 512 0) 9 = some (List.replicate 512 0) := by
  have hz : ∀ e < 2 ^ 9, ofInt8 (rd (List.replicate 512 0) e) = 0 := by
    intro e he
    have he' : e < 512 := he
    rw [rd_replicate he']
    rfl
  refine completePrivate_complete (by omega) length_unit length_zeroPolynomial length_zeroPolynomial
    length_zeroPolynomial ?_ ?_ ?_
  · intro x hx
    rw [List.eq_of_mem_replicate hx]
    decide
  · intro e he
    have hone : ofInt8 (rd (1 :: List.replicate 511 0) 0) = 1 := rfl
    rw [fwd_eq_sum (isTable_twiddle (by omega)) _ he, Finset.sum_eq_single_of_mem 0 (by simp), hone, pow_zero,
      mul_one]
    · exact one_ne_zero
    · intro u hu h0
      have hu' : u < 512 := Finset.mem_range.1 hu
      have hu0 : ofInt8 0 = 0 := rfl
      rw [rd_unit 1 hu' h0, hu0, zero_mul]
  · intro e he
    rw [mulMod_congr (fun _ _ => rfl) hz, mulMod_congr hz (fun _ _ => rfl), mulMod_comm, mulMod_zero_left,
      mulMod_zero_left]

/-- The encodings of `f`, `g` and `F` are decoded one after the other. -/
private theorem trimI8Decode_unit (rest : List UInt8) :
    trimI8Decode 9 6 ((0x04 :: List.replicate 383 0) ++ rest) = some (1 :: List.replicate 511 0, 384) := by
  have hlen : (0x04 :: List.replicate 383 (0 : UInt8)).length = 384 := by
    rw [List.length_cons, List.length_replicate]
  have hfirst : Bits.ofNat 8 (0x04 : UInt8).toNat = encodeTrim 6 1 ++ List.replicate 2 false := by decide
  rw [← hlen]
  refine trimI8Decode_complete (by omega) (by omega) length_unit ?_ (show 0 < 8 by omega) ?_
  · intro x hx
    rcases List.mem_cons.1 hx with rfl | hx
    · exact ⟨by decide, by decide⟩
    · rw [List.eq_of_mem_replicate hx]
      exact ⟨by decide, by decide⟩
  · rw [Bits.ofBytes_cons, Bits.ofBytes_replicate_zero, hfirst, List.flatMap_cons, flatMap_encodeTrim_zero,
      List.replicate_zero, List.append_nil, List.append_assoc, List.replicate_append_replicate]

private theorem trimI8Decode_zero {bits k : ℕ} (h0 : 0 < bits) (h8 : bits ≤ 8) (hk : 8 * k = bits * 512)
    (rest : List UInt8) :
    trimI8Decode 9 bits (List.replicate k 0 ++ rest) = some (List.replicate 512 0, k) := by
  have hbits : trimI8Decode 9 bits (List.replicate k 0 ++ rest) =
      some (List.replicate 512 0, (List.replicate k (0 : UInt8)).length) := by
    refine trimI8Decode_complete h0 h8 length_zeroPolynomial ?_ (show 0 < 8 by omega) ?_
    · intro x hx
      rw [List.eq_of_mem_replicate hx]
      constructor
      · exact neg_lt_zero.2 (by positivity)
      · exact (by positivity : (0 : ℤ) < 2 ^ (bits - 1))
    · rw [Bits.ofBytes_replicate_zero, flatMap_encodeTrim_zero, List.replicate_zero, List.append_nil, hk]
  rw [hbits, List.length_replicate]

theorem decodePrivkey_unitPrivkey : decodePrivkey unitPrivkey = .ok ⟨1 :: List.replicate 511 0,
    List.replicate 512 0, List.replicate 512 0, List.replicate 512 0⟩ := by
  have hA : (0x04 :: List.replicate 383 (0 : UInt8)).length = 384 := by
    rw [List.length_cons, List.length_replicate]
  have hB : (List.replicate 384 (0 : UInt8)).length = 384 := List.length_replicate
  have hf : trimI8Decode 9 6 (unitPrivkey.1.drop 1) = some (1 :: List.replicate 511 0, 384) := by
    rw [unitPrivkey, List.drop_succ_cons, List.drop_zero, trimI8Decode_unit]
  have hg : trimI8Decode 9 6 (unitPrivkey.1.drop 385) = some (List.replicate 512 0, 384) := by
    rw [unitPrivkey, List.drop_succ_cons, List.drop_left' hA, trimI8Decode_zero (by omega) (by omega) (by omega)]
  have hF : trimI8Decode 9 8 (unitPrivkey.1.drop 769) = some (List.replicate 512 0, 512) := by
    have hdrop : unitPrivkey.1.drop 769 = List.replicate 512 0 ++ [] := by
      rw [show 769 = 385 + 384 from rfl, ← List.drop_drop, unitPrivkey, List.drop_succ_cons, List.drop_left' hA,
        List.drop_left' hB, List.append_nil]
    rw [hdrop, trimI8Decode_zero (by omega) (by omega) (by omega)]
  exact decodePrivkey_of_parts rfl hf hg hF completePrivate_unit

end DfVrf.Crypto
