import DfVrf.Crypto.KeyCodec
import DfVrf.Crypto.HashToPoint
import DfVrf.Crypto.Verify

/-!
# Verification in the deterministic mode (`falcon.c`, `deterministic.c`, `ntt_helper.c`)

A SHAKE-mode signature is a header, a salt version and the compressed `s2`; verification expands the version to a
40-byte salt.  A Keccak-mode signature is a header, a nonce of 40 bytes and the compressed `s2`.  The return
codes are those of the C code; `none` means that the sampling of the challenge has not ended within `fuel` draws.

* `verifyCompressed_eq_zero`, `verifyCompressedKeccak_eq_zero`: what an accepted signature looks like, and the
  equation it satisfies.
-/

namespace DfVrf.Crypto

open InPlace Negacyclic

def errSize : ℤ := -2
def errFormat : ℤ := -3
def errBadSig : ℤ := -4

/-- `FALCON_PUBKEY_SIZE`. -/
def pubkeySize (logn : ℕ) : ℕ := (if logn ≤ 1 then 4 else 7 <<< (logn - 2)) + 1

/-- `FALCON_SIG_COMPRESSED_MAXSIZE`. -/
def sigCompressedMaxSize (logn : ℕ) : ℕ := ((((11 <<< logn) + (101 >>> (10 - logn))) + 7) >>> 3) + 41

/-- `FALCON_TMPSIZE_VERIFY`. -/
def tmpSizeVerify (logn : ℕ) : ℕ := (8 <<< logn) + 1

/-- `FALCON_DET512_LOGN`. -/
def det512Logn : ℕ := 9

/-- `FALCON_DET512_SIG_COMPRESSED_HEADER`. -/
def det512SigCompressedHeader : UInt8 := 0x39 ||| 0x80

/-! ### SHAKE256 mode -/

/-- `falcon_verify_start`. -/
def falconVerifyStart (f : Lanes → Lanes) (sig : List UInt8) : Except ℤ Shake256 :=
  if sig.length < 41 then .error errFormat
  else .ok (Shake256.inject f Shake256.init ((sig.drop 1).take 40))

/-- `falcon_verify_finish` with `sig_type = FALCON_SIG_COMPRESSED`. -/
def falconVerifyFinish (f : Lanes → Lanes) (fuel : ℕ) (sig pubkey : List UInt8) (hashData : Shake256)
    (tmpLen : ℕ) : Option ℤ :=
  if sig.length < 41 ∨ pubkey.length = 0 then some errFormat
  else
    let es := sig
    let pk := pubkey
    if rd pk 0 &&& 0xF0 ≠ 0x00 then some errFormat
    else
      let logn := (rd pk 0 &&& 0x0F).toNat
      if logn < 1 ∨ logn > 10 then some errFormat
      else if (rd es 0 &&& 0x0F).toNat ≠ logn then some errBadSig
      else if rd es 0 &&& 0xF0 ≠ 0x30 then some errFormat
      else if pubkey.length ≠ pubkeySize logn then some errFormat
      else if tmpLen < tmpSizeVerify logn then some errSize
      else
        match modqDecode logn (pk.drop 1) with
        | none => some errFormat
        | some (h, len) =>
          if len ≠ pubkey.length - 1 then some errFormat
          else
            match compDecode logn (es.drop 41) with
            | none => some errFormat
            | some (sv, v) =>
              if 41 + v ≠ sig.length then some errFormat
              else
                match hashToPointVartime f fuel hashData.flip logn with
                | none => none
                | some hm =>
                  let h := toNttMonty h logn
                  if verifyRaw hm sv h logn then some 0 else some errBadSig

/-- `falcon_verify` with `sig_type = FALCON_SIG_COMPRESSED`. -/
def falconVerify (f : Lanes → Lanes) (fuel : ℕ) (sig pubkey data : List UInt8) (tmpLen : ℕ) : Option ℤ :=
  match falconVerifyStart f sig with
  | .error r => some r
  | .ok hd => falconVerifyFinish f fuel sig pubkey (Shake256.inject f hd data) tmpLen

/-- `falcon_det512_salt_rest`: the text "FALCON_DET" in a field of 38 bytes. -/
def saltRest : List UInt8 := [0x46, 0x41, 0x4C, 0x43, 0x4F, 0x4E, 0x5F, 0x44, 0x45, 0x54] ++ List.replicate 28 0

/-- `falcon_det512_write_salt`. -/
def writeSalt (saltVersion : UInt8) : List UInt8 := saltVersion :: UInt8.ofNat det512Logn :: saltRest

/-- `falcon_det512_resalt`. -/
def resalt (unsaltedSig : List UInt8) : List UInt8 :=
  (rd unsaltedSig 0 &&& ~~~0x80) :: (writeSalt (rd unsaltedSig 1) ++ unsaltedSig.drop 2)

/-- `falcon_det512_verify_compressed`. -/
def verifyCompressed (f : Lanes → Lanes) (fuel : ℕ) (sig : List UInt8) (pubkey : ByteVec 897)
    (data : List UInt8) : Option ℤ :=
  if sig.length < 2 then some errBadSig
  else if rd sig 0 ≠ det512SigCompressedHeader then some errBadSig
  else
    let saltedSigLen := sig.length + 40 - 1
    if saltedSigLen > sigCompressedMaxSize det512Logn then some errBadSig
    else falconVerify f fuel (resalt sig) pubkey.1 data (tmpSizeVerify det512Logn)

/-! ### Keccak-256 mode -/

/-- The input phase of the generator that the challenge is drawn from, up to `flip`. -/
def challengeInput (nonce data : List UInt8) : KeccakPrng :=
  let hkc := KeccakPrng.init
  let hkc := (hkc.inject nonce).2
  (hkc.inject data).2

/-- `falcon_det512_verify_compressed_keccak`. -/
def verifyCompressedKeccak (K : Keccak256) (fuel : ℕ) (sig : List UInt8) (pubkey : ByteVec 897)
    (data : List UInt8) : Option ℤ :=
  if sig.length < 41 then some errFormat
  else
    let es := sig
    let pk := pubkey.1
    if rd pk 0 &&& 0xF0 ≠ 0x00 ∨ rd es 0 &&& 0xF0 ≠ 0x30 then some errFormat
    else
      let logn := (rd pk 0 &&& 0x0F).toNat
      if logn ≠ det512Logn then some errFormat
      else if (rd es 0 &&& 0x0F).toNat ≠ logn then some errFormat
      else
        match modqDecode logn (pk.drop 1) with
        | none => some errFormat
        | some (h, len) =>
          if len ≠ pubkeySize det512Logn - 1 then some errFormat
          else
            match compDecode logn (es.drop 41) with
            | none => some errFormat
            | some (sv, v) =>
              if v = 0 ∨ 41 + v ≠ sig.length then some errFormat
              else
                let hkc := ((challengeInput ((es.drop 1).take 40) data).flip K).2
                match keccakHashToPointVartime K fuel hkc logn with
                | none => none
                | some hm =>
                  let h := toNttMonty h logn
                  if verifyRaw hm sv h logn then some 0 else some errBadSig

/-! ### Parts of a signature and of a key -/

/-- `falcon_keccak_nonce`. -/
def falconKeccakNonce (sig : List UInt8) : Except ℤ (List UInt8) :=
  if sig.length < 41 then .error (-1) else .ok ((sig.drop 1).take 40)

/-- `falcon_keccak_s2_coeffs`. -/
def falconKeccakS2Coeffs (sig : List UInt8) : Except ℤ (List Int16) :=
  if sig.length < 42 then .error (-1)
  else if rd sig 0 &&& 0xF0 ≠ 0x30 then .error (-2)
  else
    let logn := (rd sig 0 &&& 0x0F).toNat
    match compDecode logn (sig.drop 41) with
    | none => .error (-3)
    | some (s2, consumed) => if consumed > 0 then .ok s2 else .error (-3)

/-- `falcon_det512_pubkey_coeffs`. -/
def pubkeyCoeffs (pubkey : ByteVec 897) : Except ℤ (List UInt16) :=
  match modqDecode det512Logn (pubkey.1.drop 1) with
  | none => .error errFormat
  | some (h, len) => if len ≠ pubkeySize det512Logn - 1 then .error errFormat else .ok h

/-! ### Accepted signatures -/

/-- The public key has degree 512 and decodes to `h`, the body of a signature is read to its end and decodes to
`s2`, and `s2` satisfies the verification equation for the challenge `hm`. -/
structure Accepted (pubkey body : List UInt8) (hm : List UInt16) (s2 : List Int16) (h : List UInt16) : Prop where
  header : rd pubkey 0 = 0x09
  key : modqDecode 9 (pubkey.drop 1) = some (h, 896)
  body : compDecode 9 body = some (s2, body.length)
  equation : verifyRaw hm s2 (toNttMonty h 9) 9 = true

theorem eq_of_nibbles {b c : UInt8} (h1 : b &&& 0xF0 = c &&& 0xF0) (h2 : (b &&& 0x0F).toNat = (c &&& 0x0F).toNat) :
    b = c := by
  have hall : ∀ v w : BitVec 8, v &&& 0xF0#8 = w &&& 0xF0#8 → v &&& 0x0F#8 = w &&& 0x0F#8 → v = w := by
    intro v w hhi hlo
    have hor : ∀ x : BitVec 8, x = (x &&& 0xF0#8) ||| (x &&& 0x0F#8) := by
      intro x
      rw [← BitVec.and_or_distrib_left]
      exact (BitVec.and_allOnes (x := x)).symm
    rw [hor v, hor w, hhi, hlo]
  have h2' : b &&& 0x0F = c &&& 0x0F := UInt8.toNat_inj.1 h2
  exact UInt8.toBitVec_inj.1 (hall _ _ (congrArg UInt8.toBitVec h1) (congrArg UInt8.toBitVec h2'))

theorem compDecode_nil (logn : ℕ) : compDecode logn [] = none := by
  rw [compDecode]
  obtain ⟨n, hn⟩ : ∃ n, 1 <<< logn = n + 1 :=
    ⟨2 ^ logn - 1, by rw [Nat.shiftLeft_eq, one_mul, Nat.sub_add_cancel Nat.one_le_two_pow]⟩
  rw [hn]
  rfl

/-- A check that returns an error code has been passed by what returns zero. -/
private theorem check_eq_zero {e : ℤ} (he : e ≠ 0) {p : Prop} [Decidable p] {x : Option ℤ} :
    (if p then some e else x) = some 0 ↔ ¬ p ∧ x = some 0 := by
  by_cases h : p
  · simp [h, he]
  · simp [h]

theorem errSize_ne_zero : errSize ≠ 0 := by decide

theorem errFormat_ne_zero : errFormat ≠ 0 := by decide

theorem errBadSig_ne_zero : errBadSig ≠ 0 := by decide

/-- A signature is accepted in Keccak-256 mode exactly when its header is that of a compressed signature of degree
512 and its body is accepted for the challenge drawn from the nonce and the data. -/
theorem verifyCompressedKeccak_eq_zero (K : Keccak256) (fuel : ℕ) (sig : List UInt8) (pubkey : ByteVec 897)
    (data : List UInt8) : verifyCompressedKeccak K fuel sig pubkey data = some 0 ↔
      41 ≤ sig.length ∧ rd sig 0 = 0x39 ∧ ∃ hm s2 h,
        keccakHashToPointVartime K fuel (KeccakPrng.seeded K [(sig.drop 1).take 40, data]) 9 = some hm ∧
          Accepted pubkey.1 (sig.drop 41) hm s2 h := by
  simp only [verifyCompressedKeccak, check_eq_zero errFormat_ne_zero, not_or, not_not, not_lt]
  constructor
  · rintro ⟨hlen, ⟨hpk, hhead⟩, hlogn, hes, hv⟩
    rw [hlogn] at hv hes
    split at hv
    · simp [errFormat_ne_zero] at hv
    · rename_i h len hkey
      obtain ⟨hl, hv⟩ := (check_eq_zero errFormat_ne_zero).1 hv
      split at hv
      · simp [errFormat_ne_zero] at hv
      · rename_i s2 v hbody
        obtain ⟨hend, hv⟩ := (check_eq_zero errFormat_ne_zero).1 hv
        rw [not_or, not_not] at hend
        split at hv
        · exact absurd hv (by simp)
        · rename_i hm hpoint
          split at hv
          · rename_i hraw
            obtain rfl : len = 896 := not_not.1 hl
            obtain rfl : v = (sig.drop 41).length := by
              rw [List.length_drop]
              omega
            exact ⟨hlen, eq_of_nibbles hhead hes, hm, s2, h, hpoint, eq_of_nibbles hpk hlogn, hkey, hbody, hraw⟩
          · simp [errBadSig_ne_zero] at hv
  · rintro ⟨hlen, hes, hm, s2, h, hpoint, hpk, hkey, hbody, hraw⟩
    -- an accepted body is not empty, so the code does not take its length for a failure
    have hend : ¬ ((sig.drop 41).length = 0 ∨ 41 + (sig.drop 41).length ≠ sig.length) := by
      rintro (h0 | h0)
      · rw [List.length_eq_zero_iff.1 h0, compDecode_nil] at hbody
        exact absurd hbody (by simp)
      · rw [List.length_drop] at h0
        omega
    have hlogn : ((0x09 : UInt8) &&& 0x0F).toNat = 9 := rfl
    have hpoint' : keccakHashToPointVartime K fuel ((challengeInput ((sig.drop 1).take 40) data).flip K).2 9 =
        some hm := hpoint
    rw [hpk, hes]
    refine ⟨hlen, by decide, rfl, rfl, ?_⟩
    simp only [hlogn, hkey, hbody, hpoint', hraw, if_neg hend, if_true]
    rfl

theorem logn_of_pubkeySize {logn : ℕ} (h : logn ≤ 10) (hs : pubkeySize logn = 897) : logn = 9 := by
  have hall : ∀ k ≤ 10, pubkeySize k = 897 → k = 9 := by decide
  exact hall logn h hs

/-- `falcon_verify` for a public key of 897 bytes and a signature of the compressed type. -/
private theorem falconVerify_eq_zero (f : Lanes → Lanes) (fuel : ℕ) (sig : List UInt8) (pubkey : ByteVec 897)
    (data : List UInt8) : falconVerify f fuel sig pubkey.1 data (tmpSizeVerify det512Logn) = some 0 ↔
      41 ≤ sig.length ∧ rd sig 0 = 0x39 ∧ ∃ hm s2 h,
        hashToPointVartime f fuel (Shake256.seeded f [(sig.drop 1).take 40, data]) 9 = some hm ∧
          Accepted pubkey.1 (sig.drop 41) hm s2 h := by
  by_cases hlen : sig.length < 41
  · rw [falconVerify, falconVerifyStart, if_pos hlen]
    simp [errFormat_ne_zero]
    omega
  · simp only [falconVerify, falconVerifyStart, if_neg hlen, falconVerifyFinish,
      check_eq_zero errFormat_ne_zero, check_eq_zero errBadSig_ne_zero, check_eq_zero errSize_ne_zero,
      not_or, not_not, not_lt, pubkey.2]
    constructor
    · rintro ⟨⟨h41, _⟩, hpk, ⟨_, hl10⟩, hes, hhead, hsize, _, hv⟩
      have hlogn := logn_of_pubkeySize hl10 hsize.symm
      rw [hlogn] at hv hes
      split at hv
      · simp [errFormat_ne_zero] at hv
      · rename_i h len hkey
        obtain ⟨hl, hv⟩ := (check_eq_zero errFormat_ne_zero).1 hv
        split at hv
        · simp [errFormat_ne_zero] at hv
        · rename_i s2 v hbody
          obtain ⟨hend, hv⟩ := (check_eq_zero errFormat_ne_zero).1 hv
          split at hv
          · exact absurd hv (by simp)
          · rename_i hm hpoint
            split at hv
            · rename_i hraw
              obtain rfl : len = 896 := not_not.1 hl
              obtain rfl : v = (sig.drop 41).length := by
                rw [List.length_drop]
                omega
              exact ⟨h41, eq_of_nibbles hhead hes, hm, s2, h, hpoint, eq_of_nibbles hpk hlogn, hkey, hbody, hraw⟩
            · simp [errBadSig_ne_zero] at hv
    · rintro ⟨h41, hes, hm, s2, h, hpoint, hpk, hkey, hbody, hraw⟩
      have hend : 41 + (sig.drop 41).length = sig.length := by
        rw [List.length_drop]
        omega
      have hlogn : ((0x09 : UInt8) &&& 0x0F).toNat = 9 := rfl
      have hpoint' : hashToPointVartime f fuel (Shake256.inject f (Shake256.inject f Shake256.init
          ((sig.drop 1).take 40)) data).flip 9 = some hm := hpoint
      rw [hpk, hes]
      refine ⟨⟨h41, by decide⟩, rfl, by decide, rfl, rfl, rfl, by decide, ?_⟩
      simp only [hlogn, hkey, hbody, hpoint', hraw, hend, if_true, ne_eq, not_true_eq_false, if_false]

/-- The salted signature starts with the header without its top bit and the expanded salt version. -/
theorem resalt_spec {sig : List UInt8} (h2 : 2 ≤ sig.length) : (resalt sig).length = sig.length + 39 ∧
    rd (resalt sig) 0 = rd sig 0 &&& ~~~0x80 ∧ ((resalt sig).drop 1).take 40 = writeSalt (rd sig 1) ∧
      (resalt sig).drop 41 = sig.drop 2 := by
  have hsalt : (writeSalt (rd sig 1)).length = 40 := rfl
  refine ⟨?_, rfl, ?_, ?_⟩
  · rw [resalt, List.length_cons, List.length_append, hsalt, List.length_drop]
    omega
  · rw [resalt, List.drop_succ_cons, List.drop_zero, List.take_left' hsalt]
  · rw [resalt, List.drop_succ_cons, List.drop_left' hsalt]

/-- A signature is accepted in SHAKE256 mode exactly when it fits the buffer of the salted signature, its header is
that of a compressed signature in the deterministic mode, and its body is accepted for the challenge drawn from the
expanded salt version and the data. -/
theorem verifyCompressed_eq_zero (f : Lanes → Lanes) (fuel : ℕ) (sig : List UInt8) (pubkey : ByteVec 897)
    (data : List UInt8) : verifyCompressed f fuel sig pubkey data = some 0 ↔
      2 ≤ sig.length ∧ rd sig 0 = 0xB9 ∧ sig.length ≤ 713 ∧ ∃ hm s2 h,
        hashToPointVartime f fuel (Shake256.seeded f [writeSalt (rd sig 1), data]) 9 = some hm ∧
          Accepted pubkey.1 (sig.drop 2) hm s2 h := by
  have hmax : sigCompressedMaxSize det512Logn = 752 := rfl
  have hheader : det512SigCompressedHeader = 0xB9 := rfl
  simp only [verifyCompressed, check_eq_zero errBadSig_ne_zero, not_not, not_lt, hmax, hheader,
    falconVerify_eq_zero]
  constructor
  · rintro ⟨h2, hhead, hlen, _, _, hm, s2, h, hpoint, hacc⟩
    obtain ⟨_, _, hsalt, hbody⟩ := resalt_spec h2
    rw [hsalt] at hpoint
    rw [hbody] at hacc
    exact ⟨h2, hhead, by omega, hm, s2, h, hpoint, hacc⟩
  · rintro ⟨h2, hhead, hlen, hm, s2, h, hpoint, hacc⟩
    obtain ⟨hrlen, hr0, hsalt, hbody⟩ := resalt_spec h2
    refine ⟨h2, hhead, by omega, by omega, ?_, hm, s2, h, ?_, ?_⟩
    · rw [hr0, hhead]
      rfl
    · rw [hsalt]
      exact hpoint
    · rw [hbody]
      exact hacc

/-- A signature assembled from the header, a nonce and a body that is accepted for the challenge. -/
theorem verifyCompressedKeccak_of_parts {K : Keccak256} {fuel : ℕ} (nonce : ByteVec 40) {body : List UInt8}
    {pubkey : ByteVec 897} {data : List UInt8} {hm : List UInt16} {s2 : List Int16} {h : List UInt16}
    (hpoint : keccakHashToPointVartime K fuel (KeccakPrng.seeded K [nonce.1, data]) 9 = some hm)
    (hacc : Accepted pubkey.1 body hm s2 h) :
    verifyCompressedKeccak K fuel (0x39 :: (nonce.1 ++ body)) pubkey data = some 0 := by
  refine (verifyCompressedKeccak_eq_zero _ _ _ _ _).2 ⟨?_, rfl, hm, s2, h, ?_, ?_⟩
  · rw [List.length_cons, List.length_append, nonce.2]
    omega
  · rw [List.drop_succ_cons, List.drop_zero, List.take_left' nonce.2]
    exact hpoint
  · rw [List.drop_succ_cons, List.drop_left' nonce.2]
    exact hacc

/-- The polynomial is read back from a signature assembled from its parts. -/
theorem falconKeccakS2Coeffs_of_parts (nonce : ByteVec 40) {body : List UInt8} {s2 : List Int16}
    (hbody : compDecode 9 body = some (s2, body.length)) :
    falconKeccakS2Coeffs (0x39 :: (nonce.1 ++ body)) = .ok s2 := by
  have hpos : 0 < body.length := by
    cases body with
    | nil =>
      rw [compDecode_nil] at hbody
      exact absurd hbody (by simp)
    | cons b bs => exact Nat.succ_pos _
  have hlen : ¬ (0x39 :: (nonce.1 ++ body)).length < 42 := by
    rw [List.length_cons, List.length_append, nonce.2]
    omega
  have hhead : rd (0x39 :: (nonce.1 ++ body)) 0 = 0x39 := rfl
  have hlogn : ((0x39 : UInt8) &&& 0x0F).toNat = 9 := rfl
  rw [falconKeccakS2Coeffs, if_neg hlen, hhead, if_neg (by decide)]
  simp only [hlogn]
  rw [List.drop_succ_cons, List.drop_left' nonce.2, hbody]
  simp only
  rw [if_pos hpos]

/-- A signature assembled from the header, a salt version and a body that is accepted for the challenge. -/
theorem verifyCompressed_of_parts {f : Lanes → Lanes} {fuel : ℕ} (version : UInt8) {body : List UInt8}
    {pubkey : ByteVec 897} {data : List UInt8} {hm : List UInt16} {s2 : List Int16} {h : List UInt16}
    (hl : body.length ≤ 711)
    (hpoint : hashToPointVartime f fuel (Shake256.seeded f [writeSalt version, data]) 9 = some hm)
    (hacc : Accepted pubkey.1 body hm s2 h) :
    verifyCompressed f fuel (0xB9 :: version :: body) pubkey data = some 0 := by
  refine (verifyCompressed_eq_zero _ _ _ _ _).2 ⟨?_, rfl, ?_, hm, s2, h, hpoint, hacc⟩
  · simp
  · rw [List.length_cons, List.length_cons]
    omega

/-- The parts of an accepted signature. -/
theorem parts_of_accepted {K : Keccak256} {fuel : ℕ} {sig : List UInt8} {pubkey : ByteVec 897} {data : List UInt8}
    (ha : verifyCompressedKeccak K fuel sig pubkey data = some 0) : ∃ nonce : ByteVec 40, ∃ hm s2 h,
      falconKeccakNonce sig = .ok nonce.1 ∧ falconKeccakS2Coeffs sig = .ok s2 ∧ pubkeyCoeffs pubkey = .ok h ∧
        keccakHashToPointVartime K fuel (KeccakPrng.seeded K [nonce.1, data]) 9 = some hm ∧
          Accepted pubkey.1 (sig.drop 41) hm s2 h := by
  obtain ⟨hlen, hhead, hm, s2, h, hpoint, hacc⟩ := (verifyCompressedKeccak_eq_zero _ _ _ _ _).1 ha
  have hbody : (sig.drop 41).length ≠ 0 := by
    intro h0
    have hnil := hacc.body
    rw [List.length_eq_zero_iff.1 h0, compDecode_nil] at hnil
    exact absurd hnil (by simp)
  have hnonce : ((sig.drop 1).take 40).length = 40 := by
    rw [List.length_take, List.length_drop]
    omega
  refine ⟨⟨_, hnonce⟩, hm, s2, h, ?_, ?_, ?_, hpoint, hacc⟩
  · rw [falconKeccakNonce, if_neg (by omega)]
  · rw [List.length_drop] at hbody
    have hlogn : ((0x39 : UInt8) &&& 0x0F).toNat = 9 := rfl
    rw [falconKeccakS2Coeffs, if_neg (by omega), hhead, if_neg (by decide)]
    simp only [hlogn, hacc.body]
    rw [if_pos (by rw [List.length_drop]; omega)]
  · have hlogn : det512Logn = 9 := rfl
    rw [pubkeyCoeffs, hlogn, hacc.key]
    rfl

/-! ### The zero key and the zero signature -/

/-- The public key `h = 0`. -/
def zeroPubkey : ByteVec 897 :=
  ⟨0x09 :: List.replicate 896 0, by rw [List.length_cons, List.length_replicate]⟩

/-- The encoding of `s2 = 0`: 64 times the encodings of eight zeros. -/
def zeroBody : List UInt8 :=
  (List.replicate 64 [0x00, 0x80, 0x40, 0x20, 0x10, 0x08, 0x04, 0x02, 0x01]).flatten

theorem length_zeroBody : zeroBody.length = 576 := by
  rw [zeroBody, List.length_flatten, List.map_replicate, List.sum_replicate]
  rfl

theorem modqDecode_zeroPubkey : modqDecode 9 (zeroPubkey.1.drop 1) = some (List.replicate 512 0, 896) := by
  have hbits : ∀ k, Bits.ofBytes (List.replicate (7 * k) 0) = (List.replicate (4 * k) 0).flatMap encodeModq := by
    intro k
    induction k with
    | zero => rfl
    | succ k ih =>
      rw [Nat.mul_succ, Nat.mul_succ, Nat.add_comm, Nat.add_comm (4 * k), List.replicate_add, List.replicate_add,
        Bits.ofBytes_append, ih, List.flatMap_append]
      rfl
  have hlen : (zeroPubkey.1.drop 1).length = 896 := by rw [List.length_drop, zeroPubkey.2]
  rw [← hlen]
  refine modqDecode_complete (by rw [List.length_replicate]; rfl) ?_ (show 0 < 8 by omega) ?_
  · intro y hy
    rw [List.eq_of_mem_replicate hy]
    decide
  · rw [List.replicate_zero, List.append_nil]
    exact hbits 128

theorem ofBytes_zeroBody : Bits.ofBytes zeroBody = (List.replicate 512 0).flatMap encodeCoeff := by
  have hbits : ∀ k, Bits.ofBytes (List.replicate k [0x00, 0x80, 0x40, 0x20, 0x10, 0x08, 0x04, 0x02, 0x01]).flatten =
      (List.replicate (8 * k) 0).flatMap encodeCoeff := by
    intro k
    induction k with
    | zero => rfl
    | succ k ih =>
      rw [Nat.mul_succ, Nat.add_comm (8 * k), List.replicate_succ, List.flatten_cons, List.replicate_add,
        Bits.ofBytes_append, ih, List.flatMap_append]
      rfl
  exact hbits 64

theorem compDecode_zeroBody : compDecode 9 zeroBody = some (List.replicate 512 0, zeroBody.length) := by
  refine compDecode_complete (by rw [List.length_replicate]; rfl) ?_ (show 0 < 8 by omega) ?_
  · intro x hx
    rw [List.eq_of_mem_replicate hx]
    decide
  · rw [List.replicate_zero, List.append_nil, ofBytes_zeroBody]

/-- The encoding of the polynomial `1024`. -/
theorem compDecode_cons_zeroBody :
    compDecode 9 (0 :: zeroBody) = some (1024 :: List.replicate 511 0, (0 :: zeroBody).length) := by
  refine compDecode_complete ?_ ?_ (show 0 < 8 by omega) ?_
  · rw [List.length_cons, List.length_replicate]
    rfl
  · intro x hx
    rcases List.mem_cons.1 hx with rfl | hx
    · decide
    · rw [List.eq_of_mem_replicate hx]
      decide
  · have hsucc : List.replicate 512 (0 : Int16) = 0 :: List.replicate 511 0 := List.replicate_succ
    have hcoeff : Bits.ofNat 8 (0 : UInt8).toNat ++ encodeCoeff 0 = encodeCoeff 1024 := by decide
    rw [Bits.ofBytes_cons, ofBytes_zeroBody, hsucc, List.flatMap_cons, List.flatMap_cons, List.replicate_zero,
      List.append_nil, ← List.append_assoc, hcoeff]

theorem sum_normSq_zero : ∑ u ∈ Finset.range 512, normSq (ofInt16 (rd (List.replicate 512 0) u)) = 0 := by
  refine Finset.sum_eq_zero fun u hu => ?_
  rw [rd_replicate (Finset.mem_range.1 hu)]
  rfl

/-- The norm of a constant polynomial. -/
theorem sum_normSq_const {x : ℕ → Zq} (h : ∀ u < 512, u ≠ 0 → x u = 0) :
    ∑ u ∈ Finset.range 512, normSq (x u) = normSq (x 0) := by
  refine Finset.sum_eq_single_of_mem 0 (by simp) fun u hu h0 => ?_
  rw [h u (Finset.mem_range.1 hu) h0]
  rfl

theorem sum_normSq_shiftedZero :
    ∑ u ∈ Finset.range 512, normSq (ofInt16 (rd (1024 :: List.replicate 511 0) u)) = 1048576 := by
  rw [sum_normSq_const]
  · exact (sq_eq_normSq (by decide)).symm
  · intro u hu h0
    obtain ⟨k, rfl⟩ := Nat.exists_eq_succ_of_ne_zero h0
    have htail : rd (List.replicate 511 (0 : Int16)) k = 0 := rd_replicate (by omega) 0
    exact congrArg ofInt16 htail

theorem repCentred_of_compDecode {body : List UInt8} {s2 : List Int16} {v : ℕ}
    (h : compDecode 9 body = some (s2, v)) : RepCentred (2 ^ 9) s2 (fun e => ofInt16 (rd s2 e)) := by
  obtain ⟨hl, hx, _⟩ := compDecode_spec h
  refine Represents.of_forall_mem hl fun x hmem => ?_
  have := hx x hmem
  omega

/-- Under the zero key a signature is accepted when the challenge and `s2` together are short. -/
theorem accepted_zeroPubkey {body : List UInt8} {hm : List UInt16} {s2 : List Int16} {c : ℕ → Zq}
    (hbody : compDecode 9 body = some (s2, body.length)) (hc : Rep 512 hm c)
    (h : ∑ u ∈ Finset.range 512, normSq (c u) + ∑ u ∈ Finset.range 512, normSq (ofInt16 (rd s2 u)) ≤ 34034726) :
    Accepted zeroPubkey.1 body hm s2 (List.replicate 512 0) := by
  refine ⟨rfl, modqDecode_zeroPubkey, hbody, ?_⟩
  have hh : Rep (2 ^ 9) (List.replicate 512 0) (fun _ => 0) := Represents.replicate (show 0 < 12289 by omega)
  have hbound : (rd l2bound 9).toNat = 34034726 := rfl
  rw [verifyRaw_iff_sigNorm (by omega) hc (repCentred_of_compDecode hbody) (toNttMonty_rep (by omega) hh), sigNorm,
    mulMod_comm, hbound]
  simpa [mulMod_zero_left] using h

/-- Under the zero key the zero signature is accepted for the challenges that are short themselves. -/
theorem accepted_zero {hm : List UInt16} {c : ℕ → Zq} (hc : Rep 512 hm c)
    (h : ∑ u ∈ Finset.range 512, normSq (c u) ≤ 34034726) :
    Accepted zeroPubkey.1 zeroBody hm (List.replicate 512 0) (List.replicate 512 0) := by
  exact accepted_zeroPubkey compDecode_zeroBody hc (by rwa [sum_normSq_zero, Nat.add_zero])

theorem exists_rep_zero :
    ∃ c : ℕ → Zq, Rep 512 (List.replicate 512 0) c ∧ ∑ u ∈ Finset.range 512, normSq (c u) = 0 :=
  ⟨fun _ => 0, Represents.replicate (show 0 < 12289 by omega), Finset.sum_eq_zero fun _ _ => rfl⟩

/-- Under the zero key and the zero hash the zero signature is accepted with every nonce for all data. -/
theorem verifyCompressedKeccak_zero (nonce : ByteVec 40) (data : List UInt8) :
    ∃ fuel, verifyCompressedKeccak zeroHash fuel (0x39 :: (nonce.1 ++ zeroBody)) zeroPubkey data = some 0 := by
  obtain ⟨fuel, hfuel⟩ := keccakHashToPointVartime_zeroHash [nonce.1, data]
  obtain ⟨c, hc, hzero⟩ := exists_rep_zero
  exact ⟨fuel, verifyCompressedKeccak_of_parts nonce hfuel (accepted_zero hc (by omega))⟩

end DfVrf.Crypto
