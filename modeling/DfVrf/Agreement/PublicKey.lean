import DfVrf.Agreement.Verify
import DfVrf.Go.Falcon

/-!
# The public key

The Go code exports the transform of the public key that `mq_NTT` computes, the contract with the on-chain transform
computes it from the packed coefficients.  The words are the same (`packUint16Coeffs_mqNtt`), hence the two contracts
return the same result.

The contract also decodes the bytes of a public key, as `modq_decode` does (`nttDecompress_eq`).
-/

namespace DfVrf

open InPlace Negacyclic Word Crypto Contracts Go

/-- The packed transform of the C code is the compacted transform of the contract. -/
theorem packUint16Coeffs_mqNtt (h : PublicPoly) :
    packUint16Coeffs (mqNtt h.coeffs 9) = nttCompact (nttfw (nttExpand (packUint16Coeffs h.coeffs))) := by
  have hrep := mqNtt_rep (by omega : 9 ≤ 10) h.rep
  have hfw : WordRep 512 (nttfw (nttExpand (packUint16Coeffs h.coeffs))) (fwd twiddle 9 9 (coeffPoly h.coeffs)) :=
    nttfw_rep ((nttExpand_rep _).congr fun e he => (slots_packUint16Coeffs_rep h he).2)
  have hlen := length_packedKey h
  refine eq_of_slots (hlen.trans (length_nttCompact _).symm) fun e he => ?_
  rw [hlen] at he
  -- both slots are reduced and represent the same element
  obtain ⟨hred, hval⟩ := slots_nttCompact_rep hfw (show e < 512 by omega)
  have hred' := (slots_packUint16Coeffs_rep h.ntt (show e < 512 by omega)).1
  rw [h.coeffs_ntt] at hred'
  refine WordReduced.eq_of_ofWord hred' hred ?_
  rw [slots_packedKey h (by omega), hval]

private theorem publicPoly_of_pubkeyCoeffs {pubkey : ByteVec 897} {h : List UInt16} (hd : pubkeyCoeffs pubkey = .ok h) :
    h.length = 512 ∧ ∀ y ∈ h, y.toNat < 12289 := by
  unfold pubkeyCoeffs at hd
  split at hd
  · cases hd
  · rename_i h' len hm
    split at hd
    · cases hd
    · cases hd
      exact modqDecode_spec hm

/-- For a decodable public key the exported transform, packed, is the one that the contract computes from the packed
coefficients, and the contract that computes it agrees with the one that is given it on every input. -/
theorem onchainNttVerify_eq_vrfFalconEvmVerify {pubkey : ByteVec 897} {h : List UInt16}
    (hd : pubkeyCoeffs pubkey = .ok h) : ∃ ntth, nttCoefficients pubkey = .ok ntth ∧ ntth = mqNtt h 9 ∧
      packUint16Coeffs ntth = nttCompact (nttfw (nttExpand (packUint16Coeffs h))) ∧
      ∀ (K : Keccak256) (fuel fmp fmp' : ℕ) (transcript salt : List UInt8) (s2 : List Word),
        onchainNttVerify K fuel fmp transcript salt s2 (packUint16Coeffs h) =
          vrfFalconEvmVerify K fuel fmp' transcript salt s2 (packUint16Coeffs ntth) := by
  obtain ⟨hl, hr⟩ := publicPoly_of_pubkeyCoeffs hd
  have hkey := packUint16Coeffs_mqNtt ⟨h, hl, hr⟩
  refine ⟨mqNtt h 9, nttCoefficients_eq_ok hd, rfl, hkey, fun K fuel fmp fmp' transcript salt s2 => ?_⟩
  rw [onchainNttVerify_eq K fuel fmp fmp' transcript salt s2 (length_packUint16Coeffs ⟨h, hl, hr⟩), hkey]

theorem onchainNttVerify_eq_zeroPubkey : ∃ ntth, nttCoefficients zeroPubkey = .ok ntth ∧
      ntth = mqNtt (List.replicate 512 0) 9 ∧
      packUint16Coeffs ntth = nttCompact (nttfw (nttExpand (packUint16Coeffs (List.replicate 512 0)))) ∧
      ∀ (K : Keccak256) (fuel fmp fmp' : ℕ) (transcript salt : List UInt8) (s2 : List Word),
        onchainNttVerify K fuel fmp transcript salt s2 (packUint16Coeffs (List.replicate 512 0)) =
          vrfFalconEvmVerify K fuel fmp' transcript salt s2 (packUint16Coeffs ntth) := by
  refine onchainNttVerify_eq_vrfFalconEvmVerify ?_
  rw [pubkeyCoeffs, show det512Logn = 9 from rfl, modqDecode_zeroPubkey]
  rfl

/-! ### The encoded public key -/

private theorem pointCoeffs_map_wordOfUInt16 (c : List UInt16) : pointCoeffs (c.map wordOfUInt16) = c := by
  rw [pointCoeffs, List.map_map]
  refine List.map_id'' (fun y => ?_) c
  apply UInt16.toNat_inj.1
  have hlt := y.toNat_lt
  rw [Function.comp_apply, wordOfUInt16, UInt16.toNat_ofNat', BitVec.toNat_ofNat]
  omega

/-- The two loops read the same coefficients. -/
private theorem nttDecompressLoop_eq (bs : List UInt8) (acc : UInt32) (accLen : ℕ) (x : List UInt16) :
    (nttDecompressLoop bs acc accLen (x.map wordOfUInt16)).toOption =
      (modqDecodeLoop 512 bs acc accLen x).map fun r => (r.1, r.2.1, r.2.2.map wordOfUInt16) := by
  induction bs generalizing acc accLen x with
  | nil =>
    rw [nttDecompressLoop, modqDecodeLoop, List.length_map, n]
    split <;> rfl
  | cons b bs ih =>
    rw [nttDecompressLoop, modqDecodeLoop, List.length_map, n]
    by_cases hmore : x.length < 512
    · rw [if_pos hmore, if_pos hmore]
      simp only
      by_cases h14 : accLen + 8 ≥ 14
      · rw [if_pos h14, if_pos h14]
        obtain ⟨w, hw⟩ : ∃ w, (acc <<< 8 ||| b.toUInt32) >>> UInt32.ofNat (accLen + 8 - 14) &&& 0x3FFF = w := ⟨_, rfl⟩
        rw [hw]
        by_cases hq : w ≥ 12289
        · rw [if_pos hq, if_pos hq]
          rfl
        · -- a coefficient that passes the test fits into 16 bits
          have hlt : w.toNat < 12289 := by
            rw [ge_iff_le, UInt32.le_iff_toNat_le, not_le] at hq
            exact hq
          have hcoeff : BitVec.ofNat 256 w.toNat = wordOfUInt16 w.toUInt16 := by
            rw [wordOfUInt16, UInt32.toNat_toUInt16, Nat.mod_eq_of_lt (show w.toNat < 2 ^ 16 by omega)]
          have hih := ih (acc <<< 8 ||| b.toUInt32) (accLen + 8 - 14) (x ++ [w.toUInt16])
          rw [List.map_append, List.map_singleton] at hih
          rw [if_neg hq, if_neg hq, hcoeff, hih]
      · rw [if_neg h14, if_neg h14, ih]
    · rw [if_neg hmore, if_neg hmore]
      rfl

/-- The contract decodes the body of a public key as the C code does. -/
theorem nttDecompress_eq (header : UInt8) {body : List UInt8} (hl : body.length = 896) :
    (nttDecompress (header :: body) 1).toOption = (modqDecode 9 body).map fun r => r.1.map wordOfUInt16 := by
  have hin : ((1 <<< 9) * 14 + 7) >>> 3 = 896 := rfl
  have hloop := nttDecompressLoop_eq body 0 0 []
  rw [List.map_nil] at hloop
  rw [nttDecompress, List.drop_succ_cons, List.drop_zero, modqDecode]
  simp only [hin]
  rw [if_neg (by omega), List.take_of_length_le (by omega), show 1 <<< 9 = 512 from rfl]
  rcases hm : modqDecodeLoop 512 body 0 0 [] with _ | ⟨acc, accLen, x⟩
  · rw [hm] at hloop
    rcases hn : nttDecompressLoop body 0 0 [] with err | r
    · rfl
    · rw [hn] at hloop
      cases hloop
  · rw [hm] at hloop
    rcases hn : nttDecompressLoop body 0 0 [] with err | r
    · rw [hn] at hloop
      cases hloop
    · rw [hn] at hloop
      obtain rfl := Option.some.inj hloop
      -- 512 coefficients of 14 bits fill the body, so that there is no padding
      rw [modqDecodeLoop_eq _ _ _ (by omega), show 512 = 2 ^ 9 from rfl] at hm
      obtain ⟨hacc, -⟩ := fixedDecodeLoop_bits (by omega) (by omega) recovers_modq
        (show body.length = (2 ^ 9 * 14 + 7) / 8 by omega) hm
      obtain rfl : accLen = 0 := by omega
      have hzero : BitVec.ofNat 256 acc.toNat &&& ((1 <<< 0) - 1) = (0 : Word) := BitVec.and_zero
      have hzero' : acc &&& ((1 <<< UInt32.ofNat 0) - 1) = 0 := UInt32.and_zero
      simp only
      rw [if_neg (not_not.2 hzero), if_neg (not_not.2 hzero')]
      rfl

/-- The decoders of public keys in C and Solidity agree, and are inverse to the encoder. -/
theorem publicKey_codec (pk : ByteVec 897) (h : PublicPoly) :
    ((nttDecompress pk.1 1).toOption = (modqDecode 9 (pk.1.drop 1)).map fun r => r.1.map wordOfUInt16) ∧
      (∃ body, modqEncode 896 h.coeffs 9 = some body ∧ body.length = 896 ∧
        modqDecode 9 body = some (h.coeffs, 896) ∧
        ∀ header, nttDecompress (header :: body) 1 = .ok (h.coeffs.map wordOfUInt16)) ∧
      (∀ c v, modqDecode 9 (pk.1.drop 1) = some (c, v) → v = 896 ∧ modqEncode 896 c 9 = some (pk.1.drop 1)) ∧
      ∀ x, nttDecompress pk.1 1 = .ok x → modqEncode 896 (pointCoeffs x) 9 = some (pk.1.drop 1) := by
  have hroom : (2 ^ 9 * 14 + 7) / 8 ≤ 896 := by decide
  obtain ⟨header, body, hpk⟩ := List.exists_cons_of_length_pos (show 0 < pk.1.length by rw [pk.2]; omega)
  have hl : body.length = 896 := by
    have := pk.2
    rw [hpk, List.length_cons] at this
    omega
  have hbody : pk.1.drop 1 = body := by rw [hpk, List.drop_succ_cons, List.drop_zero]
  have hencode : ∀ c v, modqDecode 9 body = some (c, v) → v = 896 ∧ modqEncode 896 c 9 = some body := by
    intro c v hd
    obtain rfl : v = 896 := (modqDecode_sound hd).1
    refine ⟨rfl, ?_⟩
    rw [modqEncode_modqDecode hd hroom, List.take_of_length_le (by omega)]
  have hdecode := nttDecompress_eq header hl
  rw [hbody, hpk]
  refine ⟨hdecode, ?_, hencode, ?_⟩
  · obtain ⟨enc, henc, hlen, hdec⟩ := modqDecode_modqEncode h.length h.reduced hroom
    rw [hlen] at hdec
    refine ⟨enc, henc, hlen, hdec, fun header' => ?_⟩
    have hon := nttDecompress_eq header' hlen
    rw [hdec] at hon
    rcases hx : nttDecompress (header' :: enc) 1 with err | x
    · rw [hx] at hon
      cases hon
    · rw [hx] at hon
      exact congrArg Except.ok (Option.some.inj hon)
  · intro x hx
    rw [hx] at hdecode
    rcases hm : modqDecode 9 body with _ | ⟨c, v⟩
    · rw [hm] at hdecode
      cases hdecode
    · rw [hm] at hdecode
      obtain rfl := Option.some.inj hdecode
      rw [pointCoeffs_map_wordOfUInt16]
      exact (hencode c v hm).2

end DfVrf
