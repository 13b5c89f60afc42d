import DfVrf.Crypto.HashToPointCt
import DfVrf.Crypto.SigSize

/-!
# Signatures in the CT format (`deterministic.c`)

A signature in the CT format has 770 bytes: a header, the salt version and `s2` with 12 bits for each coefficient.
`convert_compressed_to_ct` decodes the compressed encoding and encodes `s2` anew.  It does not test whether the
compressed encoding ends with the string, and it computes the length of the encoding as a `size_t` from that of the
string.  Hence a converted signature is valid exactly when the original one is, unless bytes follow an accepted
encoding (`verifyCt_convert_iff`).
-/

namespace DfVrf.Crypto

open InPlace

/-- `FALCON_SIG_CT_SIZE`. -/
def sigCtSize (logn : ℕ) : ℕ := (3 <<< (logn - 1)) - (if logn = 3 then 1 else 0) + 41

/-- `FALCON_DET512_SIG_CT_SIZE`. -/
def det512SigCtSize : ℕ := sigCtSize det512Logn - 40 + 1

/-- `FALCON_DET512_SIG_CT_HEADER`. -/
def det512SigCtHeader : UInt8 := 0x59 ||| 0x80

def maxSigBits : List ℕ := [0, 10, 11, 11, 12, 12, 12, 12, 12, 12, 12]

/-- `falcon_verify_finish` with `sig_type = FALCON_SIG_CT`. -/
def falconVerifyFinishCt (f : Lanes → Lanes) (sig pubkey : List UInt8) (hashData : Shake256) (tmpLen : ℕ) : ℤ :=
  if sig.length < 41 ∨ pubkey.length = 0 then errFormat
  else
    let es := sig
    let pk := pubkey
    if rd pk 0 &&& 0xF0 ≠ 0x00 then errFormat
    else
      let logn := (rd pk 0 &&& 0x0F).toNat
      if logn < 1 ∨ logn > 10 then errFormat
      else if (rd es 0 &&& 0x0F).toNat ≠ logn then errBadSig
      else if rd es 0 &&& 0xF0 ≠ 0x50 then errFormat
      else if sig.length ≠ sigCtSize logn then errFormat
      else if pubkey.length ≠ pubkeySize logn then errFormat
      else if tmpLen < tmpSizeVerify logn then errSize
      else
        match modqDecode logn (pk.drop 1) with
        | none => errFormat
        | some (h, len) =>
          if len ≠ pubkey.length - 1 then errFormat
          else
            match trimI16Decode logn (rd maxSigBits logn) (es.drop 41) with
            | none => errFormat
            | some (sv, v) =>
              if 41 + v ≠ sig.length then errFormat
              else
                let hm := hashToPointCt f hashData.flip logn
                let h := toNttMonty h logn
                if verifyRaw hm sv h logn then 0 else errBadSig

/-- `falcon_verify` with `sig_type = FALCON_SIG_CT`. -/
def falconVerifyCt (f : Lanes → Lanes) (sig pubkey data : List UInt8) (tmpLen : ℕ) : ℤ :=
  match falconVerifyStart f sig with
  | .error r => r
  | .ok hd => falconVerifyFinishCt f sig pubkey (Shake256.inject f hd data) tmpLen

/-- `falcon_det512_verify_ct`. -/
def verifyCt (f : Lanes → Lanes) (sig : ByteVec 770) (pubkey : ByteVec 897) (data : List UInt8) : ℤ :=
  if rd sig.1 0 ≠ det512SigCtHeader then errBadSig
  else falconVerifyCt f (resalt sig.1) pubkey.1 data (tmpSizeVerify det512Logn)

/-- The memory at and behind a string. -/
def memory (sig : List UInt8) (beyond : ℕ → UInt8) (i : ℕ) : UInt8 :=
  if i < sig.length then rd sig i else beyond (i - sig.length)

/-- The length `sig_compressed_len-2`, a `size_t`. -/
def bodyLen (sig : List UInt8) : ℕ := if sig.length < 2 then 2 ^ 64 + sig.length - 2 else sig.length - 2

/-- The `k` bytes at `sig_compressed+2`. -/
def bodyBytes (sig : List UInt8) (beyond : ℕ → UInt8) (k : ℕ) : List UInt8 :=
  (List.range k).map fun i => memory sig beyond (i + 2)

/-- `falcon_det512_convert_compressed_to_ct`; the memory behind the string is `beyond`. -/
def convertCompressedToCt (beyond : ℕ → UInt8) (sigCompressed : List UInt8) : Except ℤ (List UInt8) :=
  let mem := memory sigCompressed beyond
  if mem 0 ≠ det512SigCompressedHeader then .error errBadSig
  else
    match compDecode det512Logn (bodyBytes sigCompressed beyond (bodyLen sigCompressed)) with
    | none => .error errSize
    | some (coeffs, v) =>
      if v = 0 then .error errSize
      else
        match trimI16Encode (det512SigCtSize - 2) coeffs det512Logn (rd maxSigBits det512Logn) with
        | none => .error errSize
        | some out => .ok (det512SigCtHeader :: mem 1 :: out)

/-- `falcon_det512_s2_coeffs`. -/
def s2Coeffs (sig : ByteVec 770) : Except ℤ (List Int16) :=
  let logn := det512Logn
  if rd sig.1 0 ≠ det512SigCtHeader then .error errFormat
  else
    match trimI16Decode logn (rd maxSigBits logn) (sig.1.drop 2) with
    | none => .error errFormat
    | some (s2, v) => if v ≠ det512SigCtSize - 2 then .error errFormat else .ok s2

/-! ### Verification -/

/-- A check that returns an error code has been passed by what returns zero. -/
private theorem checkCt_eq_zero {e : ℤ} (he : e ≠ 0) {p : Prop} [Decidable p] {x : ℤ} :
    (if p then e else x) = 0 ↔ ¬ p ∧ x = 0 := by
  by_cases h : p
  · simp [h, he]
  · simp [h]

/-- `falcon_verify` for a public key of 897 bytes and a signature of the CT type. -/
private theorem falconVerifyCt_eq_zero (f : Lanes → Lanes) (sig : List UInt8) (pubkey : ByteVec 897)
    (data : List UInt8) :
    falconVerifyCt f sig pubkey.1 data (tmpSizeVerify det512Logn) = 0 ↔
      sig.length = 809 ∧ rd sig 0 = 0x59 ∧ rd pubkey.1 0 = 0x09 ∧
      ∃ s2 h, modqDecode 9 (pubkey.1.drop 1) = some (h, 896) ∧
        trimI16Decode 9 12 (sig.drop 41) = some (s2, 768) ∧
          verifyRaw (hashToPointCt f (Shake256.seeded f [(sig.drop 1).take 40, data]) 9) s2 (toNttMonty h 9) 9 := by
  by_cases hlen : sig.length < 41
  · rw [falconVerifyCt, falconVerifyStart, if_pos hlen]
    simp only [errFormat_ne_zero, false_iff, not_and]
    omega
  · simp only [falconVerifyCt, falconVerifyStart, if_neg hlen, falconVerifyFinishCt,
      checkCt_eq_zero errFormat_ne_zero, checkCt_eq_zero errBadSig_ne_zero, checkCt_eq_zero errSize_ne_zero,
      not_or, not_not, not_lt, pubkey.2]
    have hbits : rd maxSigBits 9 = 12 := rfl
    constructor
    · rintro ⟨_, hpk, ⟨_, hl10⟩, hes, hhead, hsig, hsize, _, hv⟩
      have hlogn := logn_of_pubkeySize hl10 hsize.symm
      rw [hlogn] at hv hes hsig
      split at hv
      · simp [errFormat_ne_zero] at hv
      · rename_i h len hkey
        obtain ⟨hl, hv⟩ := (checkCt_eq_zero errFormat_ne_zero).1 hv
        split at hv
        · simp [errFormat_ne_zero] at hv
        · rename_i s2 v hbody
          obtain ⟨hend, hv⟩ := (checkCt_eq_zero errFormat_ne_zero).1 hv
          split at hv
          · rename_i hraw
            have hsize : sigCtSize 9 = 809 := rfl
            obtain rfl : len = 896 := not_not.1 hl
            obtain rfl : v = 768 := by omega
            exact ⟨hsig, eq_of_nibbles hhead hes, eq_of_nibbles hpk hlogn, s2, h, hkey, hbody, hraw⟩
          · simp [errBadSig_ne_zero] at hv
    · rintro ⟨hsig, hes, hpk, s2, h, hkey, hbody, hraw⟩
      have hlogn : ((0x09 : UInt8) &&& 0x0F).toNat = 9 := rfl
      have hraw' : verifyRaw (hashToPointCt f (Shake256.inject f (Shake256.inject f Shake256.init
          ((sig.drop 1).take 40)) data).flip 9) s2 (toNttMonty h 9) 9 = true := hraw
      rw [hpk, hes]
      refine ⟨⟨by omega, by decide⟩, rfl, by decide, rfl, rfl, ?_, rfl, by decide, ?_⟩
      · rw [hsig]
        rfl
      · simp only [hlogn, hkey, hbits, hbody, hraw', hsig, if_true, ne_eq, not_true_eq_false, if_false, Nat.reduceAdd,
          Nat.reduceSub]

/-! ### Conversion -/

private theorem length_bodyBytes (sig : List UInt8) (beyond : ℕ → UInt8) (k : ℕ) :
    (bodyBytes sig beyond k).length = k := by
  rw [bodyBytes, List.length_map, List.length_range]

theorem take_bodyBytes (sig : List UInt8) (beyond : ℕ → UInt8) {k l : ℕ} (h : k ≤ l) :
    (bodyBytes sig beyond l).take k = bodyBytes sig beyond k := by
  rw [bodyBytes, bodyBytes, ← List.map_take, List.take_range, Nat.min_eq_left h]

/-- The bytes up to the end of the string. -/
theorem bodyBytes_eq_drop {sig : List UInt8} (beyond : ℕ → UInt8) (h : 2 ≤ sig.length) :
    bodyBytes sig beyond (sig.length - 2) = sig.drop 2 := by
  apply ext_rd
  · rw [length_bodyBytes, List.length_drop]
  · intro i hi
    rw [length_bodyBytes] at hi
    rw [bodyBytes, rd_map_range _ hi, memory, if_pos (by omega), rd_drop, Nat.add_comm]

/-- The code of a coefficient in the CT format. -/
def ctCode (z : Int16) : UInt32 := z.toUInt16.toUInt32

/-- The signature in the CT format with the salt version `version` and the polynomial `s2`. -/
def ctSig (version : UInt8) (s2 : List Int16) : List UInt8 :=
  0xD9 :: version :: fixedEncode 12 ctCode s2

private theorem trimI16Range_of_le {x : Int16} (h : x.toInt.natAbs ≤ 2047) : TrimI16Range 12 x := by
  constructor <;> norm_num <;> omega

theorem length_ctSig (version : UInt8) {s2 : List Int16} (hl : s2.length = 512) : (ctSig version s2).length = 770 := by
  rw [ctSig, List.length_cons, List.length_cons, length_fixedEncode _ (by omega), hl]

/-- The decoder of the CT format reads what was encoded. -/
private theorem trimI16Decode_ctCode {s2 : List Int16} (hl : s2.length = 2 ^ 9) (hx : ∀ x ∈ s2, x.toInt.natAbs ≤ 2047) :
    trimI16Decode 9 12 (fixedEncode 12 ctCode s2) = some (s2, 768) :=
  trimI16Decode_fixedEncode (by omega) (by omega) hl fun x hx' => trimI16Range_of_le (hx x hx')

private theorem drop_ctSig (version : UInt8) (s2 : List Int16) :
    (ctSig version s2).drop 2 = fixedEncode 12 ctCode s2 := rfl

private theorem rd_ctSig_zero (version : UInt8) (s2 : List Int16) : rd (ctSig version s2) 0 = 0xD9 := rfl

private theorem rd_ctSig_one (version : UInt8) (s2 : List Int16) : rd (ctSig version s2) 1 = version := rfl

/-- A string is converted exactly when it starts with the header and an encoding that the decoder accepts. -/
theorem convertCompressedToCt_eq_ok {beyond : ℕ → UInt8} {sig ct : List UInt8} :
    convertCompressedToCt beyond sig = .ok ct ↔ memory sig beyond 0 = 0xB9 ∧ ∃ k s2, k ≤ bodyLen sig ∧
      compDecode 9 (bodyBytes sig beyond k) = some (s2, k) ∧ ct = ctSig (memory sig beyond 1) s2 := by
  have hencode : ∀ {s2 : List Int16}, s2.length = 2 ^ 9 → (∀ x ∈ s2, x.toInt.natAbs ≤ 2047) →
      trimI16Encode (det512SigCtSize - 2) s2 det512Logn (rd maxSigBits det512Logn) =
        some (fixedEncode 12 ctCode s2) := by
    intro s2 hl hx
    exact trimI16Encode_eq (fun x hx' => trimI16Range_of_le (hx x hx')) (by decide)
  have hheader : det512SigCompressedHeader = 0xB9 := rfl
  simp only [convertCompressedToCt, hheader]
  constructor
  · intro h
    split at h
    · exact absurd h (by simp)
    · rename_i hhead
      split at h
      · exact absurd h (by simp)
      · rename_i s2 k hdec
        split at h
        · exact absurd h (by simp)
        · obtain ⟨hl, hx, _⟩ := compDecode_spec hdec
          obtain ⟨hk, htake⟩ := compDecode_take_iff.1 hdec
          rw [length_bodyBytes] at hk
          rw [take_bodyBytes sig beyond hk] at htake
          rw [hencode hl hx] at h
          obtain rfl : _ = ct := by simpa using h
          exact ⟨not_not.1 hhead, k, s2, hk, htake, rfl⟩
  · rintro ⟨hhead, k, s2, hk, hdec, rfl⟩
    obtain ⟨hl, hx, _⟩ := compDecode_spec hdec
    have hfull : compDecode det512Logn (bodyBytes sig beyond (bodyLen sig)) = some (s2, k) := by
      refine compDecode_take_iff.2 ⟨by rwa [length_bodyBytes], ?_⟩
      rw [take_bodyBytes sig beyond hk]
      exact hdec
    have hk0 : k ≠ 0 := by
      rintro rfl
      rw [bodyBytes, List.range_zero, List.map_nil, compDecode_nil] at hdec
      exact absurd hdec (by simp)
    rw [if_neg (not_not.2 hhead), hfull]
    simp only
    rw [if_neg hk0, hencode hl hx]
    rfl

/-- The encoding in a string is unique. -/
private theorem encoding_unique {beyond : ℕ → UInt8} {sig : List UInt8} {k l : ℕ} {s t : List Int16}
    (hk : compDecode 9 (bodyBytes sig beyond k) = some (s, k))
    (hl : compDecode 9 (bodyBytes sig beyond l) = some (t, l)) :
    k = l ∧ s = t := by
  have hmax : ∀ {j : ℕ} {u : List Int16}, j ≤ max k l → compDecode 9 (bodyBytes sig beyond j) = some (u, j) →
      compDecode 9 (bodyBytes sig beyond (max k l)) = some (u, j) := by
    intro j u hj hdec
    refine compDecode_take_iff.2 ⟨by rwa [length_bodyBytes], ?_⟩
    rw [take_bodyBytes sig beyond hj]
    exact hdec
  have h := (hmax (le_max_left k l) hk).symm.trans (hmax (le_max_right k l) hl)
  obtain ⟨hs, hkl⟩ := Prod.mk.inj (Option.some.inj h)
  exact ⟨hkl, hs⟩

/-- A converted signature has the size of the CT format. -/
private theorem length_convertCompressedToCt {beyond : ℕ → UInt8} {sig ct : List UInt8}
    (h : convertCompressedToCt beyond sig = .ok ct) : ct.length = 770 := by
  obtain ⟨_, k, s2, _, hdec, rfl⟩ := convertCompressedToCt_eq_ok.1 h
  exact length_ctSig _ (compDecode_spec hdec).1

/-- A compressed signature whose encoding ends with it is converted. -/
theorem convertCompressedToCt_of_body (beyond : ℕ → UInt8) (version : UInt8) {body : List UInt8} {s2 : List Int16}
    (hdec : compDecode 9 body = some (s2, body.length)) :
    convertCompressedToCt beyond (0xB9 :: version :: body) = .ok (ctSig version s2) := by
  have hlen : (0xB9 :: version :: body).length - 2 = body.length := by simp
  have hbody : bodyBytes (0xB9 :: version :: body) beyond body.length = body := by
    rw [← hlen, bodyBytes_eq_drop beyond (by simp)]
    rfl
  refine convertCompressedToCt_eq_ok.2 ⟨rfl, body.length, s2, ?_, by rw [hbody]; exact hdec, rfl⟩
  rw [bodyLen, if_neg (by simp), hlen]

/-- The coefficients are read back from the CT format. -/
theorem s2Coeffs_ctSig (version : UInt8) {ct : ByteVec 770} {s2 : List Int16} (hl : s2.length = 2 ^ 9)
    (hx : ∀ x ∈ s2, x.toInt.natAbs ≤ 2047) (hct : ct.1 = ctSig version s2) : s2Coeffs ct = .ok s2 := by
  have hhead : rd (ctSig version s2) 0 = det512SigCtHeader := rfl
  have hdec : trimI16Decode det512Logn (rd maxSigBits det512Logn) (fixedEncode 12 ctCode s2) = some (s2, 768) :=
    trimI16Decode_ctCode hl hx
  rw [s2Coeffs, hct, if_neg (not_not.2 hhead), drop_ctSig, hdec]
  rfl

/-- A signature in the CT format is accepted when its polynomial satisfies the verification equation. -/
private theorem verifyCt_ctSig (f : Lanes → Lanes) {ct : ByteVec 770} (pubkey : ByteVec 897) (data : List UInt8)
    {version : UInt8} {s2 : List Int16} (hl : s2.length = 2 ^ 9) (hx : ∀ x ∈ s2, x.toInt.natAbs ≤ 2047)
    (hct : ct.1 = ctSig version s2) : verifyCt f ct pubkey data = 0 ↔
      rd pubkey.1 0 = 0x09 ∧ ∃ h, modqDecode 9 (pubkey.1.drop 1) = some (h, 896) ∧
        verifyRaw (hashToPointCt f (Shake256.seeded f [writeSalt version, data]) 9) s2 (toNttMonty h 9) 9 := by
  have hheader : det512SigCtHeader = 0xD9 := rfl
  obtain ⟨hlen, hhead, hsalt, hbody⟩ := resalt_spec (show 2 ≤ ct.1.length by rw [ct.2]; omega)
  have h0 : rd ct.1 0 = 0xD9 := by rw [hct, rd_ctSig_zero]
  have h1 : rd ct.1 1 = version := by rw [hct, rd_ctSig_one]
  have hdrop : ct.1.drop 2 = fixedEncode 12 ctCode s2 := by rw [hct, drop_ctSig]
  rw [h0] at hhead
  rw [h1] at hsalt
  rw [hdrop] at hbody
  rw [verifyCt, hheader, if_neg (not_not.2 h0), falconVerifyCt_eq_zero, hlen, hhead, hsalt, hbody,
    trimI16Decode_ctCode hl hx, ct.2]
  constructor
  · rintro ⟨_, _, hpk, s2', h, hkey, hs2, hraw⟩
    obtain ⟨rfl, _⟩ := Prod.mk.inj (Option.some.inj hs2)
    exact ⟨hpk, h, hkey, hraw⟩
  · rintro ⟨hpk, h, hkey, hraw⟩
    exact ⟨rfl, rfl, hpk, s2, h, hkey, rfl, hraw⟩

/-- If enough of the first samples are accepted, a converted signature is accepted when the encoding is accepted for
the challenge of the compressed format. -/
private theorem verifyCt_ctSig_iff_accepted (f : Lanes → Lanes) {ct : ByteVec 770} (pubkey : ByteVec 897)
    (data : List UInt8)
    {version : UInt8} {s2 : List Int16} {body : List UInt8} (hdec : compDecode 9 body = some (s2, body.length))
    (hct : ct.1 = ctSig version s2)
    (h717 : 512 ≤ (Sampling.accepted (draws (Shake256.keystream f [writeSalt version, data].flatten)) 717).length) :
    verifyCt f ct pubkey data = 0 ↔ ∃ fuel hm t h,
      hashToPointVartime f fuel (Shake256.seeded f [writeSalt version, data]) 9 = some hm ∧
        Accepted pubkey.1 body hm t h := by
  obtain ⟨hl, hx, _⟩ := compDecode_spec hdec
  have hfirst := first_hashToPointCt f [writeSalt version, data] h717
  obtain ⟨fuel, hfuel⟩ := (hashToPointVartime_iff f [writeSalt version, data] 9 _).2 hfirst
  rw [verifyCt_ctSig f pubkey data hl hx hct]
  constructor
  · rintro ⟨hpk, h, hkey, hraw⟩
    exact ⟨fuel, _, s2, h, hfuel, hpk, hkey, hdec, hraw⟩
  · rintro ⟨fuel', hm, t, h, hfuel', hacc⟩
    have hhm := hfirst.unique ((hashToPointVartime_iff f [writeSalt version, data] 9 hm).1 ⟨fuel', hfuel'⟩)
    obtain ⟨rfl, _⟩ := Prod.mk.inj (Option.some.inj (hdec.symm.trans hacc.body))
    refine ⟨hacc.header, h, hacc.key, ?_⟩
    rw [hhm]
    exact hacc.equation

/-- A compressed signature is accepted for some bound on the number of draws. -/
theorem exists_verifyCompressed_iff (f : Lanes → Lanes) (sig : List UInt8) (pubkey : ByteVec 897) (data : List UInt8) :
    (∃ fuel, verifyCompressed f fuel sig pubkey data = some 0) ↔ 2 ≤ sig.length ∧ rd sig 0 = 0xB9 ∧
      ∃ fuel hm s2 h, hashToPointVartime f fuel (Shake256.seeded f [writeSalt (rd sig 1), data]) 9 = some hm ∧
        Accepted pubkey.1 (sig.drop 2) hm s2 h := by
  simp only [verifyCompressed_eq_zero]
  constructor
  · rintro ⟨fuel, h2, hhead, _, hm, s2, h, hpoint, hacc⟩
    exact ⟨h2, hhead, fuel, hm, s2, h, hpoint, hacc⟩
  · rintro ⟨h2, hhead, fuel, hm, s2, h, hpoint, hacc⟩
    have hle := hacc.length_body
    rw [List.length_drop] at hle
    exact ⟨fuel, h2, hhead, by omega, hm, s2, h, hpoint, hacc⟩

/-! ### The verdict on a converted signature -/

/-- The string starts with an encoding of `k` bytes that is accepted for the challenge. -/
def AcceptedPrefix (f : Lanes → Lanes) (beyond : ℕ → UInt8) (sig : List UInt8) (pubkey : ByteVec 897)
    (data : List UInt8) (k : ℕ) : Prop :=
  memory sig beyond 0 = 0xB9 ∧ k ≤ bodyLen sig ∧ ∃ fuel hm s2 h,
    hashToPointVartime f fuel (Shake256.seeded f [writeSalt (memory sig beyond 1), data]) 9 = some hm ∧
      Accepted pubkey.1 (bodyBytes sig beyond k) hm s2 h

/-- The compressed signature is accepted when the whole string is an accepted encoding. -/
private theorem exists_verifyCompressed_iff_accepted (f : Lanes → Lanes) (beyond : ℕ → UInt8) (sig : List UInt8)
    (pubkey : ByteVec 897) (data : List UInt8) : (∃ fuel, verifyCompressed f fuel sig pubkey data = some 0) ↔
      ∃ k, k + 2 = sig.length ∧ AcceptedPrefix f beyond sig pubkey data k := by
  rw [exists_verifyCompressed_iff]
  constructor
  · rintro ⟨h2, hhead, hacc⟩
    refine ⟨sig.length - 2, by omega, ?_, ?_, ?_⟩
    · rwa [memory, if_pos (by omega)]
    · rw [bodyLen, if_neg (by omega)]
    · rw [memory, if_pos (by omega), bodyBytes_eq_drop beyond h2]
      exact hacc
  · rintro ⟨k, hk, hhead, _, hacc⟩
    obtain rfl : k = sig.length - 2 := by omega
    have h2 : 2 ≤ sig.length := by omega
    rw [memory, if_pos (by omega)] at hhead
    rw [memory, if_pos (by omega), bodyBytes_eq_drop beyond h2] at hacc
    exact ⟨h2, hhead, hacc⟩

/-- The converted signature is accepted when the string starts with an accepted encoding. -/
private theorem verifyCt_convert_iff_accepted {f : Lanes → Lanes} {beyond : ℕ → UInt8} {sig : List UInt8}
    {pubkey : ByteVec 897} {data : List UInt8} {ct : ByteVec 770} (hct : convertCompressedToCt beyond sig = .ok ct.1)
    (h717 : 512 ≤ (Sampling.accepted
      (draws (Shake256.keystream f [writeSalt (memory sig beyond 1), data].flatten)) 717).length) :
    verifyCt f ct pubkey data = 0 ↔ ∃ k, AcceptedPrefix f beyond sig pubkey data k := by
  obtain ⟨hhead, k, s2, hk, hdec, hsig⟩ := convertCompressedToCt_eq_ok.1 hct
  have hlen : (bodyBytes sig beyond k).length = k := length_bodyBytes sig beyond k
  rw [verifyCt_ctSig_iff_accepted f pubkey data (by rw [hlen]; exact hdec) hsig h717]
  constructor
  · intro hacc
    exact ⟨k, hhead, hk, hacc⟩
  · rintro ⟨l, _, _, fuel, hm, t, h, hpoint, hacc⟩
    have hbody := hacc.body
    rw [length_bodyBytes] at hbody
    obtain ⟨rfl, _⟩ := encoding_unique hdec hbody
    exact ⟨fuel, hm, t, h, hpoint, hacc⟩

/-- A string with an accepted encoding at its start is converted. -/
private theorem AcceptedPrefix.exists_convert {f : Lanes → Lanes} {beyond : ℕ → UInt8} {sig : List UInt8}
    {pubkey : ByteVec 897} {data : List UInt8} {k : ℕ} (h : AcceptedPrefix f beyond sig pubkey data k) :
    ∃ ct : ByteVec 770, convertCompressedToCt beyond sig = .ok ct.1 := by
  obtain ⟨hhead, hk, _, _, s2, _, _, hacc⟩ := h
  have hbody := hacc.body
  rw [length_bodyBytes] at hbody
  have hok := convertCompressedToCt_eq_ok.2 ⟨hhead, k, s2, hk, hbody, rfl⟩
  exact ⟨⟨_, length_convertCompressedToCt hok⟩, hok⟩

/-! ### The zero signature -/

private theorem length_accepted_zeroPerm (bs : List UInt8) (N : ℕ) :
    (Sampling.accepted (draws (Shake256.keystream zeroPerm bs)) N).length = N := by
  have hdraws : draws (Shake256.keystream zeroPerm bs) = fun _ => some 0 := by
    funext j
    exact draws_zero (keystream_zeroPerm bs) j
  rw [hdraws, Sampling.accepted, List.filterMap_eq_map', List.length_map, List.length_range]

theorem hashToPointVartime_zeroPerm (inputs : List (List UInt8)) :
    ∃ fuel, hashToPointVartime zeroPerm fuel (Shake256.seeded zeroPerm inputs) 9 = some (List.replicate 512 0) := by
  rw [hashToPointVartime_iff]
  refine Sampling.first_const (fun j => ?_) (2 ^ 9)
  rw [draws_zero (keystream_zeroPerm _)]
  rfl

/-- Under the zero key and the zero permutation the zero signature is accepted, whatever follows it. -/
private theorem acceptedPrefix_zero (beyond : ℕ → UInt8) (rest data : List UInt8) :
    AcceptedPrefix zeroPerm beyond (0xB9 :: 0 :: (zeroBody ++ rest)) zeroPubkey data 576 := by
  have hlen : (0xB9 :: 0 :: (zeroBody ++ rest)).length = 578 + rest.length := by
    rw [List.length_cons, List.length_cons, List.length_append, length_zeroBody]
    omega
  obtain ⟨fuel, hpoint⟩ := hashToPointVartime_zeroPerm
    [writeSalt (memory (0xB9 :: 0 :: (zeroBody ++ rest)) beyond 1), data]
  obtain ⟨c, hc, hzero⟩ := exists_rep_zero
  refine ⟨?_, ?_, fuel, List.replicate 512 0, List.replicate 512 0, List.replicate 512 0, hpoint, ?_⟩
  · rw [memory, if_pos (by omega)]
    rfl
  · rw [bodyLen, if_neg (by omega)]
    omega
  · have hbody : bodyBytes (0xB9 :: 0 :: (zeroBody ++ rest)) beyond 576 = zeroBody := by
      rw [← take_bodyBytes _ beyond (show 576 ≤ (0xB9 :: 0 :: (zeroBody ++ rest)).length - 2 by omega),
        bodyBytes_eq_drop beyond (by omega), List.drop_succ_cons, List.drop_succ_cons, List.drop_zero,
        List.take_left' length_zeroBody]
    rw [hbody]
    exact accepted_zero hc (by omega)

private theorem eq_of_acceptedPrefix_zero {beyond : ℕ → UInt8} {rest data : List UInt8} {k : ℕ}
    (h : AcceptedPrefix zeroPerm beyond (0xB9 :: 0 :: (zeroBody ++ rest)) zeroPubkey data k) : k = 576 := by
  obtain ⟨_, _, _, _, s, _, _, hs⟩ := acceptedPrefix_zero beyond rest data
  obtain ⟨_, _, _, _, t, _, _, ht⟩ := h
  have hs := hs.body
  have ht := ht.body
  rw [length_bodyBytes] at hs ht
  exact (encoding_unique ht hs).1

/-! ### Validity -/

/-- Conversion preserves validity in both directions, unless bytes follow an accepted encoding, or the string is so
short that the accepted encoding is not part of it. -/
theorem verifyCt_convert_iff (f : Lanes → Lanes) (beyond : ℕ → UInt8) (sig : List UInt8) (pubkey : ByteVec 897)
    (data : List UInt8) (h717 : 512 ≤ (Sampling.accepted
      (draws (Shake256.keystream f [writeSalt (memory sig beyond 1), data].flatten)) 717).length) :
    (∀ ct : ByteVec 770, convertCompressedToCt beyond sig = .ok ct.1 →
      (verifyCt f ct pubkey data = 0 ↔ ∃ fuel, verifyCompressed f fuel sig pubkey data = some 0)) ↔
      ¬ ∃ k, k + 2 ≠ sig.length ∧ AcceptedPrefix f beyond sig pubkey data k := by
  rw [exists_verifyCompressed_iff_accepted f beyond]
  constructor
  · rintro hall ⟨k, hne, hacc⟩
    obtain ⟨ct, hct⟩ := hacc.exists_convert
    obtain ⟨l, hl, hacc'⟩ := (hall ct hct).1 ((verifyCt_convert_iff_accepted hct h717).2 ⟨k, hacc⟩)
    obtain ⟨_, _, _, _, s, _, _, hs⟩ := hacc
    obtain ⟨_, _, _, _, t, _, _, ht⟩ := hacc'
    have hs := hs.body
    have ht := ht.body
    rw [length_bodyBytes] at hs ht
    obtain ⟨rfl, _⟩ := encoding_unique hs ht
    exact hne hl
  · intro hno ct hct
    rw [verifyCt_convert_iff_accepted hct h717]
    constructor
    · rintro ⟨k, hacc⟩
      refine ⟨k, ?_, hacc⟩
      by_contra hne
      exact hno ⟨k, hne, hacc⟩
    · rintro ⟨k, _, hacc⟩
      exact ⟨k, hacc⟩

theorem verifyCt_convert_iff_zero : ∃ ct : ByteVec 770,
    convertCompressedToCt (fun _ => 0) (0xB9 :: 0 :: (zeroBody ++ [])) = .ok ct.1 ∧
      (verifyCt zeroPerm ct zeroPubkey [] = 0 ↔
        ∃ fuel, verifyCompressed zeroPerm fuel (0xB9 :: 0 :: (zeroBody ++ [])) zeroPubkey [] = some 0) := by
  obtain ⟨ct, hct⟩ := (acceptedPrefix_zero (fun _ => 0) [] []).exists_convert
  refine ⟨ct, hct, (verifyCt_convert_iff zeroPerm _ _ zeroPubkey [] ?_).2 ?_ ct hct⟩
  · rw [length_accepted_zeroPerm]
    omega
  · rintro ⟨k, hne, hacc⟩
    apply hne
    rw [eq_of_acceptedPrefix_zero hacc, List.append_nil, List.length_cons, List.length_cons, length_zeroBody]

/-- The zero signature with a byte behind it is converted to a valid signature, but is not valid itself. -/
theorem verifyCt_convert_trailing_byte :
    512 ≤ (Sampling.accepted (draws (Shake256.keystream zeroPerm [writeSalt 0, []].flatten)) 717).length ∧
    ∃ ct : ByteVec 770, convertCompressedToCt (fun _ => 0) (0xB9 :: 0 :: (zeroBody ++ [0])) = .ok ct.1 ∧
      verifyCt zeroPerm ct zeroPubkey [] = 0 ∧
        ¬ ∃ fuel, verifyCompressed zeroPerm fuel (0xB9 :: 0 :: (zeroBody ++ [0])) zeroPubkey [] = some 0 := by
  have hacc := acceptedPrefix_zero (fun _ => 0) [0] []
  obtain ⟨ct, hct⟩ := hacc.exists_convert
  have h717 : ∀ bs, 512 ≤ (Sampling.accepted (draws (Shake256.keystream zeroPerm bs)) 717).length := by
    intro bs
    rw [length_accepted_zeroPerm]
    omega
  refine ⟨h717 _, ct, hct, (verifyCt_convert_iff_accepted hct (h717 _)).2 ⟨576, hacc⟩, ?_⟩
  rw [exists_verifyCompressed_iff_accepted zeroPerm (fun _ => 0)]
  rintro ⟨k, hk, hacc'⟩
  rw [eq_of_acceptedPrefix_zero hacc', List.length_cons, List.length_cons, List.length_append, length_zeroBody] at hk
  simp at hk

end DfVrf.Crypto
