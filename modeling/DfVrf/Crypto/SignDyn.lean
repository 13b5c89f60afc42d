import DfVrf.Crypto.SigSize

/-!
# Signing in SHAKE256 mode (`falcon.c`, `deterministic.c`)

`sign_compressed` derives the generator of the sampler from the private key and the data, lets
`falcon_sign_dyn_finish` assemble a salted signature, and replaces the salt by its version.  The sampler is the same
parameter as in the Keccak-256 mode.

* `signCompressed_of_parts`: the signature assembled from what the sampler returns.
* `signCompressed_fits`: a short `s2` never fails for size, and the signature has at most 713 bytes.
-/

namespace DfVrf.Crypto

open InPlace

/-- `FALCON_DET512_CURRENT_SALT_VERSION`. -/
def det512CurrentSaltVersion : UInt8 := 0

/-- `FALCON_PRIVKEY_SIZE`. -/
def privkeySize (logn : ℕ) : ℕ :=
  (if logn ≤ 3 then 3 <<< logn else ((10 - (logn >>> 1)) <<< (logn - 2)) + (1 <<< logn)) + 1

/-- `FALCON_TMPSIZE_SIGNDYN`. -/
def tmpSizeSignDyn (logn : ℕ) : ℕ := (78 <<< logn) + 7

/-- `falcon_get_logn`. -/
def falconGetLogn (obj : List UInt8) : ℤ :=
  if obj.length = 0 then errFormat
  else
    let logn := (rd obj 0 &&& 0x0F).toNat
    if logn < 1 ∨ logn > 10 then errFormat else logn

/-- The decoding of the private key in `falcon_sign_dyn_finish`. -/
def decodeSignKey (logn : ℕ) (sk : List UInt8) : Except ℤ PrivatePolys :=
  let u := 1
  match trimI8Decode logn (rd maxFgBits logn) (sk.drop u) with
  | none => .error errFormat
  | some (f, v) =>
    let u := u + v
    match trimI8Decode logn (rd maxFgBits logn) (sk.drop u) with
    | none => .error errFormat
    | some (g, v) =>
      let u := u + v
      match trimI8Decode logn (rd maxFGBits logn) (sk.drop u) with
      | none => .error errFormat
      | some (F, v) =>
        let u := u + v
        if u ≠ sk.length then .error errFormat
        else
          match completePrivate f g F logn with
          | none => .error errFormat
          | some G => .ok ⟨f, g, F, G⟩

/-- `falcon_sign_dyn_finish` with `sig_type = FALCON_SIG_COMPRESSED` and an output buffer of `esLen` bytes; `none`
means that the sampling of the challenge or of the signature has not ended. -/
def falconSignDynFinish (perm : Lanes → Lanes)
    (signDyn : Shake256 → PrivatePolys → List UInt16 → ℕ → Option (List Int16)) (fuel : ℕ) (rng : Shake256)
    (esLen : ℕ) (privkey : List UInt8) (hashData : Shake256) (nonce : List UInt8) (tmpLen : ℕ) :
    Option (Except ℤ (List UInt8)) :=
  if privkey.length = 0 then some (.error errFormat)
  else
    let sk := privkey
    if rd sk 0 &&& 0xF0 ≠ 0x50 then some (.error errFormat)
    else
      let logn := (rd sk 0 &&& 0x0F).toNat
      if logn < 1 ∨ logn > 10 then some (.error errFormat)
      else if privkey.length ≠ privkeySize logn then some (.error errFormat)
      else if tmpLen < tmpSizeSignDyn logn then some (.error errSize)
      else if esLen < 41 then some (.error errSize)
      else
        match decodeSignKey logn sk with
        | .error r => some (.error r)
        | .ok polys =>
          match hashToPointVartime perm fuel hashData.flip logn with
          | none => none
          | some hm =>
            match signDyn rng polys hm logn with
            | none => none
            | some sv =>
              match compEncode (esLen - 41) sv with
              | none => some (.error errSize)
              | some body => some (.ok (UInt8.ofNat (0x30 + logn) :: (nonce ++ body)))

/-- `falcon_det512_sign_compressed`. -/
def signCompressed (perm : Lanes → Lanes)
    (signDyn : Shake256 → PrivatePolys → List UInt16 → ℕ → Option (List Int16)) (fuel : ℕ) (privkey : ByteVec 1281)
    (data : List UInt8) : Option (Except ℤ (List UInt8)) :=
  let logn : List UInt8 := [UInt8.ofNat det512Logn]
  let saltedSigLen := sigCompressedMaxSize det512Logn
  if falconGetLogn privkey.1 ≠ det512Logn then some (.error errFormat)
  else
    -- the generator of the sampler, in output mode
    let detrng := Shake256.inject perm Shake256.init logn
    let detrng := Shake256.inject perm detrng privkey.1
    let detrng := Shake256.inject perm detrng data
    let detrng := detrng.flip
    let salt := writeSalt det512CurrentSaltVersion
    -- the hash of the salt and the data, still in input mode
    let hd := Shake256.inject perm Shake256.init salt
    let hd := Shake256.inject perm hd data
    match falconSignDynFinish perm signDyn fuel detrng saltedSigLen privkey.1 hd salt (tmpSizeSignDyn det512Logn) with
    | none => none
    | some (.error r) => some (.error r)
    | some (.ok saltedSig) =>
      some (.ok ((rd saltedSig 0 ||| 0x80) :: det512CurrentSaltVersion :: saltedSig.drop 41))

/-- The generator of the sampler in `falcon_det512_sign_compressed`. -/
def detRng (perm : Lanes → Lanes) (privkey : ByteVec 1281) (data : List UInt8) : Shake256 :=
  Shake256.seeded perm [[UInt8.ofNat det512Logn], privkey.1, data]

/-- A private key of degree 512 is decoded in the same way in both modes. -/
private theorem decodePrivkey_eq_ok {privkey : ByteVec 1281} {sk : PrivatePolys} (h : decodePrivkey privkey = .ok sk) :
    rd privkey.1 0 = 0x59 ∧ decodeSignKey 9 privkey.1 = .ok sk := by
  rw [decodePrivkey] at h
  simp only at h
  split at h
  · exact absurd h (by simp)
  · rename_i hhead
    split at h
    · exact absurd h (by simp)
    · split at h
      · exact absurd h (by simp)
      · rename_i hlogn
        have hlogn : (rd privkey.1 0 &&& 0x0F).toNat = 9 := not_not.1 hlogn
        rw [hlogn] at h
        refine ⟨eq_of_nibbles (not_not.1 hhead) hlogn, ?_⟩
        rw [decodeSignKey, privkey.2]
        exact h

/-- The signature assembled from what the sampler returns. -/
theorem signCompressed_of_parts {perm : Lanes → Lanes}
    {signDyn : Shake256 → PrivatePolys → List UInt16 → ℕ → Option (List Int16)} {fuel : ℕ}
    {privkey : ByteVec 1281} {data : List UInt8} {sk : PrivatePolys} {hm : List UInt16} {s2 : List Int16}
    {body : List UInt8} (hsk : decodePrivkey privkey = .ok sk)
    (hpoint : hashToPointVartime perm fuel (Shake256.seeded perm [writeSalt 0, data]) 9 = some hm)
    (hs2 : signDyn (detRng perm privkey data) sk hm 9 = some s2) (hbody : compEncode 711 s2 = some body) :
    signCompressed perm signDyn fuel privkey data = some (.ok (0xB9 :: 0 :: body)) := by
  obtain ⟨hhead, hdec⟩ := decodePrivkey_eq_ok hsk
  have hnibble : ((0x59 : UInt8) &&& 0x0F).toNat = 9 := rfl
  have hlogn : falconGetLogn privkey.1 = det512Logn := by
    rw [falconGetLogn, privkey.2, hhead]
    rfl
  have hfinish : falconSignDynFinish perm signDyn fuel (detRng perm privkey data) 752 privkey.1
      (Shake256.inject perm (Shake256.inject perm Shake256.init (writeSalt 0)) data) (writeSalt 0) 39943 =
        some (.ok (0x39 :: (writeSalt 0 ++ body))) := by
    have hpoint' : hashToPointVartime perm fuel (Shake256.inject perm (Shake256.inject perm Shake256.init
        (writeSalt 0)) data).flip 9 = some hm := hpoint
    rw [falconSignDynFinish, privkey.2]
    simp only [hhead, hnibble]
    rw [if_neg (by omega), if_neg (by decide), if_neg (by omega), if_neg (by decide), if_neg (by decide),
      if_neg (by omega), hdec]
    simp only [hpoint', hs2, Nat.reduceSub, hbody]
    rfl
  have hsalt : (writeSalt 0).length = 40 := rfl
  rw [signCompressed]
  simp only
  rw [if_neg (not_not.2 hlogn)]
  have hdet : (Shake256.inject perm (Shake256.inject perm (Shake256.inject perm Shake256.init
      [UInt8.ofNat det512Logn]) privkey.1) data).flip = detRng perm privkey data := rfl
  rw [hdet, show det512CurrentSaltVersion = 0 from rfl, show sigCompressedMaxSize det512Logn = 752 from rfl,
    show tmpSizeSignDyn det512Logn = 39943 from rfl, hfinish]
  simp only
  have hfirst : rd (0x39 :: (writeSalt 0 ++ body)) 0 = 0x39 := rfl
  rw [List.drop_succ_cons, List.drop_left' hsalt, hfirst, show (0x39 : UInt8) ||| 0x80 = 0xB9 from by decide]

/-! ### The size of the signature -/

/-- A private key only fails to decode for its format. -/
private theorem decodeSignKey_eq_error {logn : ℕ} {sk : List UInt8} {e : ℤ} (h : decodeSignKey logn sk = .error e) :
    e = errFormat := by
  unfold decodeSignKey at h
  simp only at h
  repeat' split at h
  all_goals cases h
  all_goals rfl

/-- The degree that `falcon_get_logn` returns is the low nibble of the first byte. -/
private theorem falconGetLogn_eq {obj : List UInt8} (h : falconGetLogn obj = det512Logn) :
    (rd obj 0 &&& 0x0F).toNat = det512Logn := by
  unfold falconGetLogn at h
  simp only at h
  split at h
  · exact absurd h (by decide)
  · split at h
    · exact absurd h (by decide)
    · exact_mod_cast h

/-- With a sampler of short polynomials and room for 705 bytes of encoding, the assembly never fails for size, and
the signature has at most 746 bytes. -/
private theorem falconSignDynFinish_size {perm : Lanes → Lanes}
    {signDyn : Shake256 → PrivatePolys → List UInt16 → ℕ → Option ShortPoly} {fuel : ℕ} {rng : Shake256}
    {esLen tmpLen : ℕ} {privkey : List UInt8} {hashData : Shake256} {nonce : List UInt8} {r : Except ℤ (List UInt8)}
    (hes : 746 ≤ esLen) (htmp : tmpSizeSignDyn (rd privkey 0 &&& 0x0F).toNat ≤ tmpLen) (hnonce : nonce.length = 40)
    (h : falconSignDynFinish perm (fun rng sk hm logn => (signDyn rng sk hm logn).map ShortPoly.coeffs) fuel rng
      esLen privkey hashData nonce tmpLen = some r) :
    r ≠ .error errSize ∧ ∀ sig, r = .ok sig → sig.length ≤ 746 := by
  have herr : errFormat ≠ errSize := by decide
  -- an error of the format is no error of the size
  have hformat : ∀ r : Except ℤ (List UInt8), some (.error errFormat) = some r →
      r ≠ .error errSize ∧ ∀ sig, r = .ok sig → sig.length ≤ 746 := by
    intro r hr
    cases hr
    exact ⟨fun hc => herr (Except.error.inj hc), fun sig hc => nomatch hc⟩
  unfold falconSignDynFinish at h
  simp only at h
  split at h
  · exact hformat r h
  split at h
  · exact hformat r h
  split at h
  · exact hformat r h
  split at h
  · exact hformat r h
  rw [if_neg (by omega), if_neg (by omega)] at h
  cases hdec : decodeSignKey (rd privkey 0 &&& 0x0F).toNat privkey with
  | error e =>
    rw [hdec] at h
    cases h
    refine ⟨fun hc => ?_, fun sig hc => nomatch hc⟩
    exact herr ((decodeSignKey_eq_error hdec).symm.trans (Except.error.inj hc))
  | ok polys =>
    rw [hdec] at h
    simp only at h
    cases hpoint : hashToPointVartime perm fuel hashData.flip (rd privkey 0 &&& 0x0F).toNat with
    | none => simp only [hpoint, reduceCtorEq] at h
    | some hm =>
      rw [hpoint] at h
      cases hs2 : signDyn rng polys hm (rd privkey 0 &&& 0x0F).toNat with
      | none => simp only [hs2, Option.map_none, reduceCtorEq] at h
      | some s2 =>
        obtain ⟨body, hbody, hlen⟩ := exists_compEncode s2 (show 705 ≤ esLen - 41 by omega)
        simp only [hs2, Option.map_some, hbody] at h
        cases h
        refine ⟨fun hc => (nomatch hc), fun sig hc => ?_⟩
        cases hc
        rw [List.length_cons, List.length_append]
        omega

/-- The encoder never runs out of the capacity of 711 bytes that `sign_compressed` leaves it, so that signing never
fails for size, and the signature fits the declared size. -/
theorem signCompressed_fits (perm : Lanes → Lanes)
    (signDyn : Shake256 → PrivatePolys → List UInt16 → ℕ → Option ShortPoly) (fuel : ℕ) (privkey : ByteVec 1281)
    (data : List UInt8) :
    (∀ s2 : ShortPoly, ∃ out, compEncode (sigCompressedMaxSize det512Logn - 41) s2.coeffs = some out ∧
      out.length ≤ 705) ∧
    signCompressed perm (fun rng sk hm logn => (signDyn rng sk hm logn).map ShortPoly.coeffs) fuel privkey data ≠
      some (.error errSize) ∧
    ∀ sig, signCompressed perm (fun rng sk hm logn => (signDyn rng sk hm logn).map ShortPoly.coeffs) fuel privkey
      data = some (.ok sig) → sig.length ≤ det512SigCompressedMaxSize := by
  have hmax : sigCompressedMaxSize det512Logn = 752 := rfl
  refine ⟨fun s2 => exists_compEncode s2 (by omega), ?_⟩
  unfold signCompressed
  simp only
  by_cases hlogn : falconGetLogn privkey.1 = det512Logn
  · rw [if_neg (not_not.2 hlogn)]
    have hnibble := falconGetLogn_eq hlogn
    split
    · exact ⟨fun hc => (nomatch hc), fun sig hc => nomatch hc⟩
    · rename_i r hfinish
      obtain ⟨hr, -⟩ := falconSignDynFinish_size (by omega) (by rw [hnibble]) rfl hfinish
      refine ⟨fun hc => hr ?_, fun sig hc => nomatch hc⟩
      rw [Except.error.inj (Option.some.inj hc)]
    · rename_i saltedSig hfinish
      obtain ⟨-, hlen⟩ := falconSignDynFinish_size (by omega) (by rw [hnibble]) rfl hfinish
      refine ⟨fun hc => (nomatch hc), fun sig hc => ?_⟩
      cases hc
      have hlen := hlen saltedSig rfl
      have hsize : det512SigCompressedMaxSize = 713 := rfl
      rw [List.length_cons, List.length_cons, List.length_drop]
      omega
  · rw [if_pos hlogn]
    exact ⟨by decide, fun sig hc => nomatch hc⟩

end DfVrf.Crypto
