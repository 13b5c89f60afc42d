import DfVrf.Crypto.Bounds
import DfVrf.Crypto.Epervier16

/-!
# Opening Epervier messages in bounded memory (`epervier16.c`)

The signed message is the whole memory of `zknox_crypto_sign_open_epervier`.  The length field is compared with the
number of bytes behind the nonce, but not with the size of the two polynomials.

* `signOpenEpervierIn_eq`: the message is read out of bounds exactly if the length field is between 1 and 1025 and the
  first header byte is right; then the second header byte is behind the end.
-/

namespace DfVrf.Crypto

open InPlace

/-- The `k` bytes at the address `i`, if all of them can be read. -/
def bytesIn (mem : ℕ → Option UInt8) (i k : ℕ) : Option (List UInt8) := (List.range k).mapM fun j => mem (i + j)

/-- `ep_comp_decode16`, reading from `mem`. -/
def epCompDecode16In (mem : ℕ → Option UInt8) (maxInLen logn : ℕ) : Option (Option (List Int16 × ℕ)) :=
  fixedDecodeIn mem maxInLen logn 16 epCoeff

/-- `zknox_crypto_sign_open_epervier`, as `signOpenEpervier`, with the signed message as the memory; `none` if a read is
out of bounds. -/
def signOpenEpervierIn (perm : Lanes → Lanes) (fuel : ℕ) (sm : List UInt8) (pk : ByteVec 1025) :
    Option (Option (Except ℤ (List UInt8))) :=
  let mem := within sm
  let smlen := sm.length
  let header := UInt8.ofNat (0x20 + epervierLogn)
  let fail : Option (Option (Except ℤ (List UInt8))) := some (some (.error (-1)))
  if rd pk.1 0 ≠ UInt8.ofNat (0x00 + epervierLogn) then fail
  else
    match epModqDecode16 epervierLogn (pk.1.drop 1) with
    | none => fail
    | some (h, v) =>
      if v ≠ epervierPubkeySize - 1 then fail
      else if smlen < 2 + epervierNonceSize then fail
      else
        (mem 0).bind fun b0 => (mem 1).bind fun b1 =>
          let sigLen := (b0.toNat <<< 8) ||| b1.toNat
          if sigLen > smlen - 2 - epervierNonceSize then fail
          else
            let msgLen := smlen - 2 - epervierNonceSize - sigLen
            let esig := 2 + epervierNonceSize + msgLen
            if sigLen < 1 then fail
            else
              (mem esig).bind fun b =>
                if b ≠ header then fail
                else
                  (mem (esig + 1025)).bind fun b =>
                    if b ≠ header then fail
                    else
                      (epCompDecode16In (fun i => mem (esig + 1 + i)) epervierSigBodySize epervierLogn).bind fun
                        | none => fail
                        | some (s1, v) =>
                          if v ≠ epervierSigBodySize then fail
                          else
                            (epCompDecode16In (fun i => mem (esig + 1 + epervierSigBodySize + 1 + i))
                                epervierSigBodySize epervierLogn).bind fun
                              | none => fail
                              | some (s2, v) =>
                                if v ≠ epervierSigBodySize then fail
                                else
                                  (bytesIn mem 2 (epervierNonceSize + msgLen)).bind fun hashed =>
                                    match hashToPointVartime perm fuel (Shake256.seeded perm [hashed])
                                        epervierLogn with
                                    | none => some none
                                    | some hm =>
                                      let r := verifyRecoverEpervier hm s1 s2 epervierLogn
                                      if r.1 = 0 then fail
                                      else if (List.range epervierN).any (fun i => rd h i ≠ rd r.2 i) then fail
                                      else
                                        (bytesIn mem (2 + epervierNonceSize) msgLen).map fun m => some (.ok m)

/-! ### Reads behind the end -/

/-- The length field of a signed message. -/
def sigLenField (sm : List UInt8) : ℕ := ((rd sm 0).toNat <<< 8) ||| (rd sm 1).toNat

/-- The length field is too small for the second header byte, although the first one is right. -/
def ShortField (sm : List UInt8) : Prop :=
  2 + epervierNonceSize + sigLenField sm ≤ sm.length ∧ 1 ≤ sigLenField sm ∧ sigLenField sm ≤ 1025 ∧
    rd sm (sm.length - sigLenField sm) = 0x29

instance (sm : List UInt8) : Decidable (ShortField sm) := by
  unfold ShortField
  infer_instance

/-- The key passes the tests that precede the first read of the message. -/
def KeyAccepted (pk : ByteVec 1025) : Prop :=
  rd pk.1 0 = 0x09 ∧ (epModqDecode16 epervierLogn (pk.1.drop 1)).isSome

instance (pk : ByteVec 1025) : Decidable (KeyAccepted pk) := by
  unfold KeyAccepted
  infer_instance

/-- The decoder of a polynomial stays within the bytes of the signature. -/
private theorem epCompDecode16In_within {sm : List UInt8} {i : ℕ} (h : i + 1024 ≤ sm.length) :
    epCompDecode16In (fun j => within sm (i + j)) epervierSigBodySize epervierLogn =
      some (epCompDecode16 epervierLogn ((List.range epervierSigBodySize).map fun j => rd sm (i + j))) := by
  have hread : ∀ j < ((1 <<< epervierLogn) * 16 + 7) >>> 3,
      within sm (i + j) = some (rd ((List.range epervierSigBodySize).map fun j => rd sm (i + j)) j) := by
    intro j hj
    have hj : j < 1024 := hj
    have hsize : epervierSigBodySize = 1026 := rfl
    rw [rd_map_range _ (by omega), within_eq (by omega)]
  have h := fixedDecodeIn_eq epCoeff hread
  rw [List.length_map, List.length_range] at h
  exact h

/-- The message is read out of bounds exactly if the key is accepted and the length field is too small for the second
header byte; otherwise it is rejected. -/
theorem signOpenEpervierIn_eq (perm : Lanes → Lanes) (fuel : ℕ) (sm : List UInt8) (pk : ByteVec 1025) :
    signOpenEpervierIn perm fuel sm pk =
      if KeyAccepted pk ∧ ShortField sm then none else some (some (.error (-1))) := by
  have hnonce : epervierNonceSize = 40 := rfl
  have hkey : UInt8.ofNat (0x00 + epervierLogn) = 0x09 := rfl
  have hheader : UInt8.ofNat (0x20 + epervierLogn) = 0x29 := rfl
  have hsigLen : (rd sm 0).toNat <<< 8 ||| (rd sm 1).toNat = sigLenField sm := rfl
  simp only [signOpenEpervierIn, hkey, hheader]
  by_cases h0 : rd pk.1 0 ≠ 0x09
  · rw [if_pos h0, if_neg (fun hc => h0 hc.1.1)]
  rw [if_neg h0]
  cases hdec : epModqDecode16 epervierLogn (pk.1.drop 1) with
  | none =>
    rw [if_neg]
    rintro ⟨⟨-, hsome⟩, -⟩
    rw [hdec] at hsome
    exact absurd hsome (by simp)
  | some p =>
    obtain ⟨h, v⟩ := p
    have hv : v = 1024 := fixedDecode_snd hdec
    have hacc : KeyAccepted pk := ⟨not_not.1 h0, by rw [hdec]; rfl⟩
    simp only [hv]
    rw [if_neg (by decide)]
    by_cases hlen : sm.length < 2 + epervierNonceSize
    · rw [if_pos hlen, if_neg (fun hc => by have := hc.2.1; omega)]
    rw [if_neg hlen, within_eq (show 0 < sm.length by omega), within_eq (show 1 < sm.length by omega), Option.bind_some,
      Option.bind_some, hsigLen]
    by_cases hfield : sigLenField sm > sm.length - 2 - epervierNonceSize
    · rw [if_pos hfield, if_neg (fun hc => by have := hc.2.1; omega)]
    rw [if_neg hfield]
    by_cases hone : sigLenField sm < 1
    · rw [if_pos hone, if_neg (fun hc => by have := hc.2.2.1; omega)]
    have hesig : 2 + epervierNonceSize + (sm.length - 2 - epervierNonceSize - sigLenField sm) =
        sm.length - sigLenField sm := by omega
    rw [if_neg hone, hesig, within_eq (by omega), Option.bind_some]
    by_cases hfirst : rd sm (sm.length - sigLenField sm) ≠ 0x29
    · rw [if_pos hfirst, if_neg (fun hc => hfirst hc.2.2.2.2)]
    rw [if_neg hfirst]
    by_cases hshort : sigLenField sm ≤ 1025
    · -- the second header byte is behind the end
      rw [if_pos ⟨hacc, by omega, by omega, hshort, not_not.1 hfirst⟩, within_eq_none (by omega), Option.bind_none]
    rw [if_neg (fun hc => hshort hc.2.2.2.1), within_eq (by omega), Option.bind_some]
    by_cases hsecond : rd sm (sm.length - sigLenField sm + 1025) ≠ 0x29
    · rw [if_pos hsecond]
    rw [if_neg hsecond, epCompDecode16In_within (by omega), Option.bind_some]
    -- the number of bytes of the first polynomial is wrong at the latest
    split
    · rfl
    · rename_i s1 v' hs1
      rw [if_pos]
      rw [epCompDecode16_snd hs1]
      decide

/-! ### The reads of a run -/

/-- The message is too short for the length field and the nonce, or the length field does not fit: the message is
shorter than it says, or it is shorter than the two headers and polynomials. -/
def Inconsistent (sm : List UInt8) : Prop :=
  sm.length < 2 + epervierNonceSize ∨ sm.length < 2 + epervierNonceSize + sigLenField sm ∨
    sigLenField sm < (1 + epervierSigBodySize) + (1 + epervierSigBodySize)

/-- Opening only reads the bytes of the message, and it rejects the message if its length is inconsistent. -/
def OpenOk (sm : List UInt8) (pk : ByteVec 1025) : Prop :=
  ∀ perm fuel, ∃ r, signOpenEpervierIn perm fuel sm pk = some r ∧ (Inconsistent sm → r = some (.error (-1)))

/-- A message of 43 bytes with the length field 1, whose signature is the header byte alone. -/
def shortMessage : List UInt8 := [0, 1] ++ List.replicate 40 0 ++ [0x29]

/-- The second header byte of a message of 43 bytes is read 1024 bytes behind its end. -/
theorem signOpenEpervier_overread : ¬ OpenOk shortMessage epervierZeroKey := by
  intro h
  obtain ⟨r, hr, -⟩ := h zeroPerm 0
  have hdec : (epModqDecode16 epervierLogn (epervierZeroKey.1.drop 1)).isSome := by
    rw [epervierZeroKey, List.drop_one, List.tail_cons, epervierLogn, epModqDecode16_zero]
    rfl
  have hkey : KeyAccepted epervierZeroKey := ⟨rfl, hdec⟩
  rw [signOpenEpervierIn_eq, if_pos ⟨hkey, by decide⟩] at hr
  exact absurd hr (by simp)

/-- The reads stay within the message exactly if the key is rejected, the first test of the length fails, the length
field is zero or at least 1026, or the first header byte is wrong. -/
theorem openOk_iff (sm : List UInt8) (pk : ByteVec 1025) : OpenOk sm pk ↔ ¬ (KeyAccepted pk ∧ ShortField sm) := by
  constructor
  · intro h hc
    obtain ⟨r, hr, -⟩ := h id 0
    rw [signOpenEpervierIn_eq, if_pos hc] at hr
    exact absurd hr (by simp)
  · intro h perm fuel
    refine ⟨some (.error (-1)), ?_, fun _ => rfl⟩
    rw [signOpenEpervierIn_eq, if_neg h]

end DfVrf.Crypto
