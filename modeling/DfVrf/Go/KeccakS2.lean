import DfVrf.Agreement.Signing
import DfVrf.Crypto.Bounds
import DfVrf.Go.Falcon

/-!
# The polynomial of a Keccak-mode signature (`ntt_helper.c`, `falcon.go`)

`falcon_keccak_s2_coeffs` takes the degree from the header of the signature and ignores how many bytes the decoder has
read; the caller passes an array of 512 coefficients.  The verifier has a parser of its own.

* `keccakS2Ok_iff`: which byte strings both parsers treat in the same way, without a write behind the array.
* `keccakS2Coefficients_of_parsed`: among them are all signatures that the verifier does not refuse as malformed.
-/

namespace DfVrf

open InPlace

namespace Crypto

/-- `falcon_keccak_s2_coeffs` with an array of `capacity` coefficients; `none` if an access is out of bounds. -/
def falconKeccakS2CoeffsIn (capacity : ℕ) (sig : List UInt8) : Option (Except ℤ (List Int16)) :=
  let mem := within sig
  if sig.length < 42 then some (.error (-1))
  else
    (mem 0).bind fun p0 =>
      if p0 &&& 0xF0 ≠ 0x30 then some (.error (-2))
      else
        let logn := (p0 &&& 0x0F).toNat
        (compDecodeIn (fun i => mem (41 + i)) (sig.length - 41) capacity logn).map fun
          | none => .error (-3)
          | some (s2, consumed) => if consumed > 0 then .ok s2 else .error (-3)

/-- The checks of `falcon_det512_verify_compressed_keccak` on the signature, and the polynomial that it verifies. -/
def parseCompressedKeccak (sig : List UInt8) : Option (List Int16) :=
  if sig.length < 41 then none
  else if rd sig 0 &&& 0xF0 ≠ 0x30 then none
  else if (rd sig 0 &&& 0x0F).toNat ≠ det512Logn then none
  else
    match compDecode det512Logn (sig.drop 41) with
    | none => none
    | some (sv, v) => if v = 0 ∨ 41 + v ≠ sig.length then none else some sv

/-- Under a well-formed key the verifier refuses a signature that it cannot parse, and otherwise tests the equation for
the parsed polynomial. -/
private theorem verifyCompressedKeccak_eq_parse {K : Keccak256} {fuel : ℕ} {sig : List UInt8} {pubkey : ByteVec 897}
    {data : List UInt8} {h : List UInt16} (hhead : rd pubkey.1 0 = 0x09)
    (hkey : modqDecode 9 (pubkey.1.drop 1) = some (h, 896)) :
    verifyCompressedKeccak K fuel sig pubkey data =
      match parseCompressedKeccak sig with
      | none => some errFormat
      | some sv => (keccakHashToPointVartime K fuel
          ((challengeInput ((sig.drop 1).take 40) data).flip K).2 9).map fun hm =>
            if verifyRaw hm sv (toNttMonty h 9) 9 then 0 else errBadSig := by
  have hlogn : det512Logn = 9 := rfl
  have hnibble : ((0x09 : UInt8) &&& 0x0F).toNat = 9 := rfl
  have hsize : pubkeySize 9 - 1 = 896 := rfl
  unfold verifyCompressedKeccak parseCompressedKeccak
  simp only [hhead, hnibble, hlogn]
  by_cases hlen : sig.length < 41
  · rw [if_pos hlen, if_pos hlen]
  · rw [if_neg hlen, if_neg hlen]
    by_cases hprefix : rd sig 0 &&& 0xF0 ≠ 0x30
    · rw [if_pos (Or.inr hprefix), if_pos hprefix]
    · rw [if_neg (fun hc => hc.elim (by decide) hprefix), if_neg hprefix, if_neg (not_not.2 rfl)]
      by_cases hdeg : (rd sig 0 &&& 0x0F).toNat ≠ 9
      · rw [if_pos hdeg, if_pos hdeg]
      · rw [if_neg hdeg, if_neg hdeg, hkey]
        simp only [hsize]
        rw [if_neg (not_not.2 rfl)]
        cases compDecode 9 (sig.drop 41) with
        | none => rfl
        | some p =>
          obtain ⟨sv, v⟩ := p
          simp only
          by_cases hv : v = 0 ∨ 41 + v ≠ sig.length
          · rw [if_pos hv, if_pos hv]
          · rw [if_neg hv, if_neg hv]
            simp only
            cases keccakHashToPointVartime K fuel ((challengeInput ((sig.drop 1).take 40) data).flip K).2 9 with
            | none => rfl
            | some hm =>
              simp only [Option.map_some]
              split <;> rfl

end Crypto

namespace Go

open Crypto

def errS2CoefficientsFail : String := "falcon computing S2 coefficients failed"

/-- `KeccakS2Coefficients`; `none` if the C code accesses memory out of bounds.  Coefficients that the C code does not
write are zero. -/
def keccakS2Coefficients (sig : List UInt8) : Option (Except String (List Int16)) :=
  if sig.length = 0 then some (.error ("empty signature: " ++ errS2CoefficientsFail))
  else
    (falconKeccakS2CoeffsIn 512 sig).map fun
      | .error r => .error (errorCode r errS2CoefficientsFail)
      | .ok s2 => .ok (s2 ++ List.replicate (512 - s2.length) 0)

/-- What a caller of `KeccakS2Coefficients` relies on: it stays within bounds, and the polynomial that it returns is the
one that the verifier reads from the signature. -/
def KeccakS2Ok (sig : List UInt8) : Prop :=
  ∃ r, keccakS2Coefficients sig = some r ∧ ∀ s2, r = .ok s2 → parseCompressedKeccak sig = some s2

/-- The body ends with the coefficients if the header names the degree 512; it does not hold the coefficients of a
smaller degree that the header names, nor 513 coefficients under a larger one. -/
def BodyOfDegree (logn : ℕ) (body : List UInt8) : Prop :=
  (logn = 9 ∧ ∀ v < body.length, ¬ IsEncoding 9 (body.take v)) ∨
  (logn < 9 ∧ ∀ v ≤ body.length, ¬ IsEncoding logn (body.take v)) ∨
  (9 < logn ∧ ¬ StartsWithCoeffs 513 body)

/-- The memory of the body. -/
private theorem within_drop {sig : List UInt8} {k i : ℕ} (hi : i < (sig.drop k).length) :
    within sig (k + i) = some (rd (sig.drop k) i) := by
  rw [List.length_drop] at hi
  rw [within_eq (by omega), rd_drop]

/-- The C code on a signature that passes the test of the header. -/
private theorem falconKeccakS2CoeffsIn_eq {sig : List UInt8} {capacity : ℕ} (hlen : ¬ sig.length < 42)
    (hhead : ¬ rd sig 0 &&& 0xF0 ≠ 0x30) : falconKeccakS2CoeffsIn capacity sig =
      (compDecodeIn (fun i => within sig (41 + i)) (sig.drop 41).length capacity (rd sig 0 &&& 0x0F).toNat).map fun
        | none => .error (-3)
        | some (s2, consumed) => if consumed > 0 then .ok s2 else .error (-3) := by
  unfold falconKeccakS2CoeffsIn
  simp only
  rw [if_neg hlen, within_eq (by omega), Option.bind_some, if_neg hhead, List.length_drop]

/-- What the verifier reads from a signature that passes the test of the header. -/
private theorem parseCompressedKeccak_eq {sig : List UInt8} (hlen : ¬ sig.length < 41)
    (hhead : ¬ rd sig 0 &&& 0xF0 ≠ 0x30) {s2 : List Int16} : parseCompressedKeccak sig = some s2 ↔
      (rd sig 0 &&& 0x0F).toNat = 9 ∧ compDecode 9 (sig.drop 41) = some (s2, (sig.drop 41).length) := by
  have hlogn : det512Logn = 9 := rfl
  unfold parseCompressedKeccak
  rw [if_neg (by omega), if_neg hhead, hlogn]
  by_cases hdeg : (rd sig 0 &&& 0x0F).toNat = 9
  · rw [if_neg (not_not.2 hdeg)]
    cases hdec : compDecode 9 (sig.drop 41) with
    | none => simp
    | some p =>
      obtain ⟨sv, v⟩ := p
      have hpos := compDecode_pos hdec
      simp only [hdeg, true_and, List.length_drop, Option.some.injEq, Prod.mk.injEq]
      split
      · rename_i hv
        simp only [reduceCtorEq, false_iff, not_and]
        intro _
        omega
      · rename_i hv
        rw [Option.some.injEq]
        exact ⟨fun h => ⟨h, by omega⟩, fun h => h.1⟩
  · rw [if_pos hdeg]
    exact ⟨fun h => absurd h (by simp), fun h => absurd h.1 hdeg⟩

/-- The wrapper on a signature that passes the test of the header. -/
private theorem keccakS2Ok_of_header {sig : List UInt8} (hlen : ¬ sig.length < 42)
    (hhead : ¬ rd sig 0 &&& 0xF0 ≠ 0x30) :
    KeccakS2Ok sig ↔ ∃ r, compDecodeIn (fun i => within sig (41 + i)) (sig.drop 41).length 512
      (rd sig 0 &&& 0x0F).toNat = some r ∧ ∀ s2 v, r = some (s2, v) → 0 < v →
        parseCompressedKeccak sig = some (s2 ++ List.replicate (512 - s2.length) 0) := by
  unfold KeccakS2Ok keccakS2Coefficients
  rw [if_neg (by omega), falconKeccakS2CoeffsIn_eq hlen hhead]
  cases compDecodeIn (fun i => within sig (41 + i)) (sig.drop 41).length 512 (rd sig 0 &&& 0x0F).toNat with
  | none => simp
  | some r =>
    cases r with
    | none => simp
    | some p =>
      obtain ⟨xs, v⟩ := p
      simp only [Option.map_some, Option.some.injEq, exists_eq_left']
      by_cases hv : v > 0
      · rw [if_pos hv]
        simp only [Except.ok.injEq, forall_eq']
        constructor
        · intro h s2 v' heq _
          cases heq
          exact h
        · intro h
          exact h xs v rfl hv
      · rw [if_neg hv]
        simp only [reduceCtorEq, false_implies, implies_true, true_iff]
        intro s2 v' heq hv'
        cases heq
        exact absurd hv' hv

/-- A decoder of at most 512 coefficients stays within bounds. -/
private theorem compDecodeIn_drop {sig : List UInt8} {logn : ℕ} (hlogn : logn ≤ 9) :
    compDecodeIn (fun i => within sig (41 + i)) (sig.drop 41).length 512 logn =
      some (compDecode logn (sig.drop 41)) :=
  compDecodeIn_eq (fun _ hi => within_drop hi) (Nat.pow_le_pow_right (by omega) hlogn)

/-- The degree 512: the verifier wants the whole body to be read. -/
private theorem keccakS2Ok_nine {sig : List UInt8} (hlen : ¬ sig.length < 42) (hhead : ¬ rd sig 0 &&& 0xF0 ≠ 0x30)
    (hdeg : (rd sig 0 &&& 0x0F).toNat = 9) :
    KeccakS2Ok sig ↔ ∀ v < (sig.drop 41).length, ¬ IsEncoding 9 ((sig.drop 41).take v) := by
  rw [keccakS2Ok_of_header hlen hhead, hdeg, compDecodeIn_drop (le_refl 9)]
  simp only [Option.some.injEq, exists_eq_left', parseCompressedKeccak_eq (by omega) hhead, hdeg, true_and]
  constructor
  · intro h v hv henc
    obtain ⟨xs, hdec⟩ := exists_compDecode_iff.2 ⟨Nat.le_of_lt hv, henc⟩
    have hall := h xs v hdec (compDecode_pos hdec)
    rw [hdec] at hall
    have hv' := (Prod.mk.inj (Option.some.inj hall)).2
    omega
  · intro h s2 v hdec _
    have hl : s2.length = 512 := (compDecode_spec hdec).1
    obtain ⟨hv, henc⟩ := exists_compDecode_iff.1 ⟨s2, hdec⟩
    have hend : v = (sig.drop 41).length := by
      by_contra hne
      exact h v (by omega) henc
    rw [hl, Nat.sub_self, List.replicate_zero, List.append_nil, hdec, hend]

/-- A smaller degree: the verifier refuses the header, hence the decoder has to fail. -/
private theorem keccakS2Ok_lt {sig : List UInt8} (hlen : ¬ sig.length < 42) (hhead : ¬ rd sig 0 &&& 0xF0 ≠ 0x30)
    {logn : ℕ} (hdeg : (rd sig 0 &&& 0x0F).toNat = logn) (hlogn : logn < 9) :
    KeccakS2Ok sig ↔ ∀ v ≤ (sig.drop 41).length, ¬ IsEncoding logn ((sig.drop 41).take v) := by
  rw [keccakS2Ok_of_header hlen hhead, hdeg, compDecodeIn_drop (by omega), ← compDecode_eq_none_iff]
  simp only [Option.some.injEq, exists_eq_left', parseCompressedKeccak_eq (by omega) hhead, hdeg]
  constructor
  · intro h
    cases hdec : compDecode logn (sig.drop 41) with
    | none => rfl
    | some p =>
      have hnine := (h p.1 p.2 hdec (compDecode_pos hdec)).1
      omega
  · intro h s2 v hdec _
    rw [h] at hdec
    exact absurd hdec (by simp)

/-- A larger degree: the array overflows if 513 coefficients are decoded, and otherwise the decoder fails. -/
private theorem keccakS2Ok_gt {sig : List UInt8} (hlen : ¬ sig.length < 42) (hhead : ¬ rd sig 0 &&& 0xF0 ≠ 0x30)
    {logn : ℕ} (hdeg : (rd sig 0 &&& 0x0F).toNat = logn) (hlogn : 9 < logn) :
    KeccakS2Ok sig ↔ ¬ StartsWithCoeffs 513 (sig.drop 41) := by
  have hpow : 2 ^ 10 ≤ 2 ^ logn := Nat.pow_le_pow_right (by omega) hlogn
  rw [keccakS2Ok_of_header hlen hhead, hdeg, ← isSome_compDecodeLoop_iff,
    compDecodeIn_of_lt (fun _ hi => within_drop hi) (show 512 < 2 ^ logn by omega)]
  by_cases hsome : (compDecodeLoop (sig.drop 41) (512 + 1) ⟨0, 0, 0⟩).isSome = true
  · rw [if_pos hsome]
    simp [hsome]
  · rw [if_neg hsome]
    refine iff_of_true ⟨_, rfl, fun s2 v hdec _ => ?_⟩ hsome
    exact absurd (isSome_compDecodeLoop_iff.2 (startsWithCoeffs_of_compDecode hdec (by omega))) hsome

/-- The two parsers treat a byte string in the same way, without a write behind the array, exactly when it is too
short, has another header, or its body is as its header says. -/
theorem keccakS2Ok_iff (sig : List UInt8) : KeccakS2Ok sig ↔
    sig.length < 42 ∨ rd sig 0 &&& 0xF0 ≠ 0x30 ∨ BodyOfDegree (rd sig 0 &&& 0x0F).toNat (sig.drop 41) := by
  by_cases hlen : sig.length < 42
  · refine iff_of_true ?_ (Or.inl hlen)
    by_cases h0 : sig.length = 0
    · exact ⟨_, if_pos h0, fun s2 hs2 => nomatch hs2⟩
    · refine ⟨.error (errorCode (-1) errS2CoefficientsFail), ?_, fun s2 hs2 => nomatch hs2⟩
      rw [keccakS2Coefficients, if_neg h0, falconKeccakS2CoeffsIn]
      simp only
      rw [if_pos hlen]
      rfl
  · by_cases hhead : rd sig 0 &&& 0xF0 ≠ 0x30
    · refine iff_of_true ?_ (Or.inr (Or.inl hhead))
      refine ⟨.error (errorCode (-2) errS2CoefficientsFail), ?_, fun s2 hs2 => nomatch hs2⟩
      rw [keccakS2Coefficients, if_neg (by omega), falconKeccakS2CoeffsIn]
      simp only
      rw [if_neg hlen, within_eq (by omega), Option.bind_some, if_pos hhead]
      rfl
    · obtain ⟨logn, hdeg⟩ : ∃ logn, (rd sig 0 &&& 0x0F).toNat = logn := ⟨_, rfl⟩
      rw [or_iff_right hlen, or_iff_right hhead, hdeg, BodyOfDegree]
      rcases lt_trichotomy logn 9 with hlt | rfl | hgt
      · rw [keccakS2Ok_lt hlen hhead hdeg hlt]
        constructor
        · exact fun h => Or.inr (Or.inl ⟨hlt, h⟩)
        · rintro (⟨h, -⟩ | ⟨-, h⟩ | ⟨h, -⟩)
          · omega
          · exact h
          · omega
      · rw [keccakS2Ok_nine hlen hhead hdeg]
        constructor
        · exact fun h => Or.inl ⟨rfl, h⟩
        · rintro (⟨-, h⟩ | ⟨h, -⟩ | ⟨h, -⟩)
          · exact h
          · omega
          · omega
      · rw [keccakS2Ok_gt hlen hhead hdeg hgt]
        constructor
        · exact fun h => Or.inr (Or.inr ⟨hgt, h⟩)
        · rintro (⟨h, -⟩ | ⟨h, -⟩ | ⟨-, h⟩)
          · omega
          · omega
          · exact h

/-- Two bodies of 512 zeros under the degree 1024: the array of the caller overflows. -/
theorem keccakS2_overflow : ¬ KeccakS2Ok (0x3A :: (List.replicate 40 0 ++ (zeroBody ++ zeroBody))) := by
  have hlen : ¬ (0x3A :: (List.replicate 40 (0 : UInt8) ++ (zeroBody ++ zeroBody))).length < 42 := by
    simp [length_zeroBody]
  have hdrop : (0x3A :: (List.replicate 40 (0 : UInt8) ++ (zeroBody ++ zeroBody))).drop 41 = zeroBody ++ zeroBody := by
    rw [List.drop_succ_cons, List.drop_left' List.length_replicate]
  have hdeg : (rd (0x3A :: (List.replicate 40 (0 : UInt8) ++ (zeroBody ++ zeroBody))) 0 &&& 0x0F).toNat = 10 := rfl
  rw [keccakS2Ok_gt hlen (by decide) hdeg (by omega), hdrop, not_not]
  refine ⟨List.replicate 513 0, (List.replicate 511 0).flatMap encodeCoeff, List.length_replicate, ?_, ?_⟩
  · intro x hx
    rw [List.eq_of_mem_replicate hx]
    decide
  · rw [Bits.ofBytes_append, ofBytes_zeroBody, ← List.flatMap_append, ← List.flatMap_append,
      List.replicate_append_replicate, List.replicate_append_replicate]

/-- If the verifier, under a well-formed key, does not refuse a signature as malformed, the accessor returns the
polynomial for which the verifier tests the equation. -/
theorem keccakS2Coefficients_of_parsed {K : Keccak256} {fuel : ℕ} {sig : List UInt8} {pubkey : ByteVec 897}
    {data : List UInt8} {h : List UInt16} (hhead : rd pubkey.1 0 = 0x09)
    (hkey : modqDecode 9 (pubkey.1.drop 1) = some (h, 896))
    (hformat : verifyCompressedKeccak K fuel sig pubkey data ≠ some errFormat) :
    ∃ s2, keccakS2Coefficients sig = some (.ok s2) ∧
      verifyCompressedKeccak K fuel sig pubkey data =
        (keccakHashToPointVartime K fuel ((challengeInput ((sig.drop 1).take 40) data).flip K).2 9).map fun hm =>
          if verifyRaw hm s2 (toNttMonty h 9) 9 then 0 else errBadSig := by
  have hparse : verifyCompressedKeccak K fuel sig pubkey data = _ := verifyCompressedKeccak_eq_parse hhead hkey
  cases hs2 : parseCompressedKeccak sig with
  | none =>
    rw [hs2] at hparse
    exact absurd hparse hformat
  | some s2 =>
    rw [hs2] at hparse
    refine ⟨s2, ?_, hparse⟩
    obtain ⟨hlen, hprefix⟩ : ¬ sig.length < 41 ∧ ¬ rd sig 0 &&& 0xF0 ≠ 0x30 := by
      unfold parseCompressedKeccak at hs2
      constructor
      · intro hc
        rw [if_pos hc] at hs2
        cases hs2
      · intro hc
        rw [if_pos hc] at hs2
        split at hs2 <;> cases hs2
    obtain ⟨hdeg, hdec⟩ := (parseCompressedKeccak_eq hlen hprefix).1 hs2
    have hpos := compDecode_pos hdec
    rw [List.length_drop] at hpos
    rw [keccakS2Coefficients, if_neg (by omega), falconKeccakS2CoeffsIn_eq (by omega) hprefix, hdeg,
      compDecodeIn_drop le_rfl, hdec, Option.map_some, Option.map_some]
    simp only
    rw [if_pos (by rw [List.length_drop]; exact hpos)]
    simp only
    rw [(compDecode_spec hdec).1, show 512 - 2 ^ 9 = 0 from rfl, List.replicate_zero, List.append_nil]

/-- An accepted signature of the polynomial with all coefficients 256. -/
theorem keccakS2Coefficients_of_parsed_widePoly : ∃ fuel sig s2,
    compDecode 9 (sig.drop 41) = some (widePoly.coeffs, (sig.drop 41).length) ∧
      verifyCompressedKeccak zeroHash fuel sig zeroPubkey [] = some 0 ∧
      keccakS2Coefficients sig = some (.ok s2) ∧
      verifyCompressedKeccak zeroHash fuel sig zeroPubkey [] = (keccakHashToPointVartime zeroHash fuel
        ((challengeInput ((sig.drop 1).take 40) []).flip zeroHash).2 9).map fun hm =>
          if verifyRaw hm s2 (toNttMonty (List.replicate 512 0) 9) 9 then 0 else errBadSig := by
  obtain ⟨fuel, body, hdec, hver⟩ :=
    exists_verified_shortPoly widePoly ⟨List.replicate 40 0, List.length_replicate⟩ []
  obtain ⟨s2, hs2, heq⟩ := keccakS2Coefficients_of_parsed rfl modqDecode_zeroPubkey
    (by rw [hver]; exact fun hc => errFormat_ne_zero (Option.some.inj hc).symm)
  refine ⟨fuel, _, s2, ?_, hver, hs2, heq⟩
  rwa [List.drop_succ_cons, List.drop_left' List.length_replicate]

end Go

end DfVrf
