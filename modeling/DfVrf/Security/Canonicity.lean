import DfVrf.Agreement.Signing
import DfVrf.Go.Vrf

/-!
# Encodings of proofs

An accepted proof of the Go code is determined by its mode, its salt version or nonce, and the polynomial `s2`
(`vrfProof_canonical`).  The packed words that the contracts accept are not: replacing a slot by another value
below `2 ^ 16` with the same residue gives a second accepted array (`onChain_not_unique`).
-/

namespace DfVrf

open InPlace Word Crypto Contracts Go

/-! ### Proofs of the Go code -/

/-- The offset of the encoded polynomial. -/
def Go.Mode.bodyStart : Mode → ℕ
  | .SHAKE => 2
  | .Keccak => 41

def Go.Mode.header : Mode → UInt8
  | .SHAKE => 0xB9
  | .Keccak => 0x39

/-- The salt version or the nonce of a proof. -/
def proofSalt (mode : Mode) (proof : List UInt8) : List UInt8 := (proof.take mode.bodyStart).drop 1

/-- The polynomial to which the body of a proof decodes. -/
def proofS2 (mode : Mode) (proof : List UInt8) : Option (List Int16) :=
  (compDecode 9 (proof.drop mode.bodyStart)).map Prod.fst

section

variable {K : Keccak256} {f : Lanes → Lanes} {sha512 : List UInt8 → ByteVec 64} {pk : ByteVec 897}
  {msg : List UInt8} {mode : Mode}

/-- The header of an accepted proof is that of the mode, and its body is decoded to the end. -/
private theorem parts_of_vrfAccepts {p : List UInt8} (h : VRFAccepts K f sha512 pk msg mode p) :
    mode.bodyStart ≤ p.length ∧ rd p 0 = mode.header ∧
      ∃ s2, compDecode 9 (p.drop mode.bodyStart) = some (s2, (p.drop mode.bodyStart).length) := by
  obtain ⟨fuel, hv⟩ := (vrfAccepts_iff K f sha512).1 h
  cases mode with
  | SHAKE =>
    obtain ⟨hl, hhead, _, _, s2, _, _, hacc⟩ := (verifyCompressed_eq_zero _ _ _ _ _).1 hv
    exact ⟨hl, hhead, s2, hacc.body⟩
  | Keccak =>
    obtain ⟨hl, hhead, _, s2, _, _, hacc⟩ := (verifyCompressedKeccak_eq_zero _ _ _ _ _).1 hv
    exact ⟨hl, hhead, s2, hacc.body⟩

/-- A proof consists of its header, its salt and its body. -/
private theorem eq_of_parts {p p' : List UInt8} (hl : mode.bodyStart ≤ p.length) (hl' : mode.bodyStart ≤ p'.length)
    (hhead : rd p 0 = rd p' 0) (hsalt : proofSalt mode p = proofSalt mode p')
    (hbody : p.drop mode.bodyStart = p'.drop mode.bodyStart) : p = p' := by
  have hpos : 0 < mode.bodyStart := by cases mode <;> decide
  have hstart : ∀ q : List UInt8, mode.bodyStart ≤ q.length → q.take mode.bodyStart = rd q 0 :: proofSalt mode q := by
    intro q hq
    cases q with
    | nil => simp at hq; omega
    | cons b q =>
      obtain ⟨k, hk⟩ : ∃ k, mode.bodyStart = k + 1 := ⟨mode.bodyStart - 1, by omega⟩
      rw [proofSalt, hk]
      rfl
  rw [← List.take_append_drop mode.bodyStart p, ← List.take_append_drop mode.bodyStart p', hstart p hl,
    hstart p' hl', hhead, hsalt, hbody]

/-- Two proofs accepted in one mode with the same salt and the same polynomial are equal, and no proof is accepted
in both modes. -/
theorem vrfProof_canonical {p : List UInt8} (h : VRFAccepts K f sha512 pk msg mode p) :
    (∀ p', VRFAccepts K f sha512 pk msg mode p' → proofS2 mode p = proofS2 mode p' →
      proofSalt mode p = proofSalt mode p' → p = p') ∧
    ∀ mode', VRFAccepts K f sha512 pk msg mode' p → mode' = mode := by
  obtain ⟨hl, hhead, s2, hs2⟩ := parts_of_vrfAccepts h
  constructor
  · intro p' h' hpoly hsalt
    obtain ⟨hl', hhead', s2', hs2'⟩ := parts_of_vrfAccepts h'
    rw [proofS2, proofS2, hs2, hs2'] at hpoly
    obtain rfl : s2 = s2' := by simpa using hpoly
    exact eq_of_parts hl hl' (hhead.trans hhead'.symm) hsalt (compDecode_unique hs2 hs2')
  · intro mode' h'
    obtain ⟨_, hhead', _⟩ := parts_of_vrfAccepts h'
    rw [hhead] at hhead'
    -- the two headers differ
    cases mode <;> cases mode' <;> first | rfl | exact absurd hhead' (by decide)

end

/-- The zero signature in Keccak-256 mode. -/
def zeroProof : List UInt8 := 0x39 :: (List.replicate 40 0 ++ zeroBody)

theorem vrfAccepts_zeroProof (f : Lanes → Lanes) (sha512 : List UInt8 → ByteVec 64) (msg : List UInt8) :
    VRFAccepts zeroHash f sha512 zeroPubkey msg .Keccak zeroProof := by
  obtain ⟨fuel, h⟩ := verifyCompressedKeccak_zero ⟨List.replicate 40 0, List.length_replicate⟩
    (makeVRFProveTranscript sha512 zeroPubkey msg).1
  exact (vrfAccepts_iff zeroHash f sha512).2 ⟨fuel, h⟩

/-- A proof whose polynomial has all coefficients 256. -/
theorem vrfProof_canonical_widePoly : ∃ p, proofS2 .Keccak p = some widePoly.coeffs ∧
    (∀ p', VRFAccepts zeroHash id (fun _ => ⟨List.replicate 64 0, rfl⟩) zeroPubkey [] .Keccak p' →
      proofS2 .Keccak p = proofS2 .Keccak p' → proofSalt .Keccak p = proofSalt .Keccak p' → p = p') ∧
    ∀ mode', VRFAccepts zeroHash id (fun _ => ⟨List.replicate 64 0, rfl⟩) zeroPubkey [] mode' p → mode' = .Keccak := by
  obtain ⟨fuel, body, hdec, hver⟩ := exists_verified_shortPoly widePoly ⟨List.replicate 40 0, List.length_replicate⟩
    (makeVRFProveTranscript (fun _ => ⟨List.replicate 64 0, rfl⟩) zeroPubkey []).1
  refine ⟨_, ?_, vrfProof_canonical ((vrfAccepts_iff zeroHash id _).2 ⟨fuel, hver⟩)⟩
  rw [proofS2, Mode.bodyStart, List.drop_succ_cons, List.drop_left' List.length_replicate, hdec, Option.map_some]

/-! ### Packed words of the contracts -/

/-- The slots agree modulo `q`. -/
def SlotsCongr (a b : List Word) : Prop :=
  a.length = b.length ∧ ∀ e < 512, (slots a e).toNat % 12289 = (slots b e).toNat % 12289

/-- Move the lowest slot of a word to another value with the same residue. -/
def shiftSlot (w : Word) : Word := if (slot w 0).toNat + 12289 < 2 ^ 16 then w + 12289 else w - 12289

private theorem slot_shiftSlot_zero (w : Word) : (slot (shiftSlot w) 0).toNat ≠ (slot w 0).toNat ∧
    (slot (shiftSlot w) 0).toNat % 12289 = (slot w 0).toNat % 12289 := by
  have hw := w.isLt
  have hlow : (slot w 0).toNat = w.toNat % 2 ^ 16 := by rw [toNat_slot, Nat.mul_zero, pow_zero, Nat.div_one]
  have hlow' : (slot (shiftSlot w) 0).toNat = (shiftSlot w).toNat % 2 ^ 16 := by
    rw [toNat_slot, Nat.mul_zero, pow_zero, Nat.div_one]
  have hq : (12289 : Word).toNat = 12289 := rfl
  rw [hlow', hlow, shiftSlot, hlow]
  split
  -- no carry or borrow leaves the lowest slot
  · rw [BitVec.toNat_add, hq]
    omega
  · rw [BitVec.toNat_sub, hq]
    omega

/-- The other slots stay. -/
private theorem slot_shiftSlot_pos (w : Word) {j : ℕ} (hj : 0 < j) : slot (shiftSlot w) j = slot w j := by
  have hw := w.isLt
  have hq : (12289 : Word).toNat = 12289 := rfl
  have hlow : (slot w 0).toNat = w.toNat % 2 ^ 16 := by rw [toNat_slot, Nat.mul_zero, pow_zero, Nat.div_one]
  have hhigh : (shiftSlot w).toNat / 2 ^ 16 = w.toNat / 2 ^ 16 := by
    rw [shiftSlot, hlow]
    split
    · rw [BitVec.toNat_add, hq]
      omega
    · rw [BitVec.toNat_sub, hq]
      omega
  apply BitVec.toNat_inj.1
  obtain ⟨k, rfl⟩ : ∃ k, j = k + 1 := ⟨j - 1, by omega⟩
  rw [toNat_slot, toNat_slot, Nat.mul_succ, Nat.add_comm, pow_add, ← Nat.div_div_eq_div_mul,
    ← Nat.div_div_eq_div_mul, hhigh]

/-- Every array of words has a different one with congruent slots. -/
private theorem exists_slotsCongr_ne {a : List Word} (hl : a.length = 32) : ∃ b, SlotsCongr a b ∧ a ≠ b := by
  have hset : ∀ e, slots (a.set 0 (shiftSlot (rd a 0))) e =
      if e / 16 = 0 then slot (shiftSlot (rd a 0)) (e % 16) else slots a e := by
    intro e
    rw [slots, slots, rd_set]
    by_cases h : e / 16 = 0
    · rw [if_pos ⟨h.symm, by omega⟩, if_pos h]
    · rw [if_neg (fun hc => h hc.1.symm), if_neg h]
  obtain ⟨hne, hcongr⟩ := slot_shiftSlot_zero (rd a 0)
  refine ⟨a.set 0 (shiftSlot (rd a 0)), ⟨by simp, ?_⟩, ?_⟩
  · intro e _
    rw [hset]
    split
    · rename_i h
      rw [slots, h]
      by_cases h0 : e % 16 = 0
      · rw [h0, hcongr]
      · rw [slot_shiftSlot_pos _ (Nat.pos_of_ne_zero h0)]
    · rfl
  · intro heq
    have h := congrArg (fun b => (slots b 0).toNat) heq
    simp only [hset] at h
    exact hne h.symm

private theorem SlotsCongr.ofWord_eq {a b : List Word} (h : SlotsCongr a b) {e : ℕ} (he : e < 512) :
    ofWord (slots a e) = ofWord (slots b e) := zq_natCast_eq (h.2 e he)

/-- For every accepted array of words another one with the same residues is accepted. -/
private theorem verifyWith_not_unique {hashToPoint : List UInt8 → List UInt8 → Option (List Word)} {fmp : ℕ}
    {transcript salt : List UInt8} {s2 ntth : List Word}
    (ha : verifyWith hashToPoint fmp transcript salt s2 ntth = some (.ok true)) :
    ∃ s2', SlotsCongr s2 s2' ∧ verifyWith hashToPoint fmp transcript salt s2' ntth = some (.ok true) ∧ s2 ≠ s2' := by
  obtain ⟨_, hl, _⟩ := verifyWith_eq_true.1 ha
  obtain ⟨s2', hcongr, hne⟩ := exists_slotsCongr_ne hl
  exact ⟨s2', hcongr, verifyWith_congr hcongr.1 (fun e he => hcongr.ofWord_eq he) ha, hne⟩

/-- Neither contract determines an accepted array of words by its residues. -/
theorem onChain_not_unique {K : Keccak256} {f : Lanes → Lanes} {fuel fmp : ℕ} {transcript salt : List UInt8}
    {s2 ntth : List Word} :
    (vrfFalconVerify f fuel fmp transcript salt s2 ntth = some (.ok true) → ∃ s2', SlotsCongr s2 s2' ∧
      vrfFalconVerify f fuel fmp transcript salt s2' ntth = some (.ok true) ∧ s2 ≠ s2') ∧
    (vrfFalconEvmVerify K fuel fmp transcript salt s2 ntth = some (.ok true) → ∃ s2', SlotsCongr s2 s2' ∧
      vrfFalconEvmVerify K fuel fmp transcript salt s2' ntth = some (.ok true) ∧ s2 ≠ s2') :=
  ⟨verifyWith_not_unique, verifyWith_not_unique⟩

/-- The zero array and the array with `q` in its lowest slot. -/
private theorem slotsCongr_zero : SlotsCongr (List.replicate 32 0) (12289 :: List.replicate 31 0) := by
  refine ⟨by simp, ?_⟩
  decide +kernel

/-- Both contracts accept the zero array and the shifted one. -/
theorem onChain_accepts_shifted : ∃ fuel fuel',
    (vrfFalconVerify zeroPerm fuel 128 (List.replicate 64 1) (List.replicate 40 7) (List.replicate 32 0)
        (packUint16Coeffs (mqNtt zeroPoly.coeffs 9)) = some (.ok true) ∧
      vrfFalconVerify zeroPerm fuel 128 (List.replicate 64 1) (List.replicate 40 7) (12289 :: List.replicate 31 0)
        (packUint16Coeffs (mqNtt zeroPoly.coeffs 9)) = some (.ok true)) ∧
    (vrfFalconEvmVerify zeroHash fuel' 128 (List.replicate 64 1) (List.replicate 40 7) (List.replicate 32 0)
        (packUint16Coeffs (mqNtt zeroPoly.coeffs 9)) = some (.ok true) ∧
      vrfFalconEvmVerify zeroHash fuel' 128 (List.replicate 64 1) (List.replicate 40 7) (12289 :: List.replicate 31 0)
        (packUint16Coeffs (mqNtt zeroPoly.coeffs 9)) = some (.ok true)) ∧
    SlotsCongr (List.replicate 32 0) (12289 :: List.replicate 31 0) ∧
    (List.replicate 32 0 : List Word) ≠ 12289 :: List.replicate 31 0 := by
  have hn : (List.replicate 40 (7 : UInt8)).length = 40 := List.length_replicate
  obtain ⟨fuel, hp⟩ := hashToPointNIST_zeroPerm (List.replicate 40 7) (List.replicate 64 1)
  obtain ⟨fuel', hp'⟩ := hashToPointEVM_zeroHash (List.replicate 40 7) (List.replicate 64 1)
  have hl : (12289 :: List.replicate 31 (0 : Word)).length = 32 := rfl
  refine ⟨fuel, fuel', ⟨?_, ?_⟩, ⟨?_, ?_⟩, slotsCongr_zero, by decide⟩
  · exact verifyWith_zeroPoly ⟨_, hn⟩ hp List.length_replicate 128
  · exact verifyWith_zeroPoly ⟨_, hn⟩ hp hl 128
  · exact verifyWith_zeroPoly ⟨_, hn⟩ hp' List.length_replicate 128
  · exact verifyWith_zeroPoly ⟨_, hn⟩ hp' hl 128

theorem onChain_not_unique_zero : ∃ fuel fuel',
    (∃ s2', SlotsCongr (List.replicate 32 0) s2' ∧
      vrfFalconVerify zeroPerm fuel 128 (List.replicate 64 1) (List.replicate 40 7) s2'
        (packUint16Coeffs (mqNtt zeroPoly.coeffs 9)) = some (.ok true) ∧ List.replicate 32 0 ≠ s2') ∧
    (∃ s2', SlotsCongr (List.replicate 32 0) s2' ∧
      vrfFalconEvmVerify zeroHash fuel' 128 (List.replicate 64 1) (List.replicate 40 7) s2'
        (packUint16Coeffs (mqNtt zeroPoly.coeffs 9)) = some (.ok true) ∧ List.replicate 32 0 ≠ s2') := by
  have hn : (List.replicate 40 (7 : UInt8)).length = 40 := List.length_replicate
  obtain ⟨fuel, hp⟩ := hashToPointNIST_zeroPerm (List.replicate 40 7) (List.replicate 64 1)
  obtain ⟨fuel', hp'⟩ := hashToPointEVM_zeroHash (List.replicate 40 7) (List.replicate 64 1)
  have hl : (List.replicate 32 (0 : Word)).length = 32 := List.length_replicate
  refine ⟨fuel, fuel', ?_, ?_⟩
  · exact (onChain_not_unique (K := zeroHash)).1 (verifyWith_zeroPoly ⟨_, hn⟩ hp hl 128)
  · exact (onChain_not_unique (f := zeroPerm)).2 (verifyWith_zeroPoly ⟨_, hn⟩ hp' hl 128)

end DfVrf
