import DfVrf.Security.Canonicity

/-!
# What the hashes of the VRF determine

* `challenge_of_version`: in SHAKE256 mode the challenge of an accepted proof is a function of the public key, the
  message and the salt version of the proof.
* `hashInputs_eq_iff`: the preimage of the transcript determines the public key and the message, and the preimage of
  the output determines the public key and the message followed by the proof.
-/

namespace DfVrf

open InPlace Negacyclic Crypto Go

/-! ### The challenge in SHAKE256 mode -/

/-- The salt that is hashed in front of the transcript. -/
def hashedSalt (proof : List UInt8) : List UInt8 := ((resalt proof).drop 1).take 40

section

variable (K : Keccak256) (f : Lanes → Lanes) (sha512 : List UInt8 → ByteVec 64) (pk : ByteVec 897) (msg : List UInt8)

/-- The verification of the proof draws the challenge `hm`. -/
def DrawsChallenge (proof : List UInt8) (hm : List UInt16) : Prop :=
  ∃ fuel hd, falconVerifyStart f (resalt proof) = .ok hd ∧
    hashToPointVartime f fuel (Shake256.inject f hd (makeVRFProveTranscript sha512 pk msg).1).flip 9 = some hm

variable {f sha512 pk msg}

private theorem hashedSalt_eq (proof : List UInt8) : hashedSalt proof = writeSalt (rd proof 1) := by
  have hsalt : (writeSalt (rd proof 1)).length = 40 := rfl
  rw [hashedSalt, resalt, List.drop_succ_cons, List.drop_zero, List.take_left' hsalt]

/-- The challenge is drawn from the salt version and the transcript. -/
theorem drawsChallenge_iff {proof : List UInt8} {hm : List UInt16} : DrawsChallenge f sha512 pk msg proof hm ↔
    ∃ fuel, hashToPointVartime f fuel
      (Shake256.seeded f [writeSalt (rd proof 1), (makeVRFProveTranscript sha512 pk msg).1]) 9 = some hm := by
  have hstart : falconVerifyStart f (resalt proof) =
      .ok (Shake256.inject f Shake256.init (writeSalt (rd proof 1))) := by
    have hlen : ¬ (resalt proof).length < 41 := by
      have hsalt : (writeSalt (rd proof 1)).length = 40 := rfl
      rw [resalt, List.length_cons, List.length_append, hsalt]
      omega
    rw [falconVerifyStart, if_neg hlen, ← hashedSalt_eq, hashedSalt]
  constructor
  · rintro ⟨fuel, hd, hok, hp⟩
    rw [hstart] at hok
    obtain rfl := Except.ok.inj hok
    exact ⟨fuel, hp⟩
  · rintro ⟨fuel, hp⟩
    exact ⟨fuel, _, hstart, hp⟩

/-- Proofs with the same salt version draw the same challenge. -/
theorem DrawsChallenge.unique {p p' : List UInt8} {hm hm' : List UInt16} (h : DrawsChallenge f sha512 pk msg p hm)
    (h' : DrawsChallenge f sha512 pk msg p' hm') (hv : rd p 1 = rd p' 1) : hm = hm' := by
  have hfirst := (hashToPointVartime_iff f _ 9 _).1 (drawsChallenge_iff.1 h)
  have hfirst' := (hashToPointVartime_iff f _ 9 _).1 (drawsChallenge_iff.1 h')
  rw [hv] at hfirst
  exact hfirst.unique hfirst'

/-- An accepted proof satisfies the verification equation for the challenge that it draws. -/
private theorem exists_drawsChallenge {p : List UInt8} (h : VRFAccepts K f sha512 pk msg .SHAKE p) :
    ∃ hm s2 h, DrawsChallenge f sha512 pk msg p hm ∧ Accepted pk.1 (p.drop 2) hm s2 h := by
  obtain ⟨fuel, hv⟩ := (vrfAccepts_iff K f sha512).1 h
  obtain ⟨_, _, _, hm, s2, h, hp, hacc⟩ := (verifyCompressed_eq_zero f fuel p pk _).1 hv
  exact ⟨hm, s2, h, drawsChallenge_iff.2 ⟨fuel, hp⟩, hacc⟩

/-- Two accepted proofs with the same salt version are checked against the same challenge. -/
theorem challenge_of_version {p p' : List UInt8} (hp : VRFAccepts K f sha512 pk msg .SHAKE p)
    (hp' : VRFAccepts K f sha512 pk msg .SHAKE p') (hv : rd p 1 = rd p' 1) :
    hashedSalt p = rd p 1 :: 0x09 :: saltRest ∧ hashedSalt p' = hashedSalt p ∧
    ∃ hm, (∀ hm', DrawsChallenge f sha512 pk msg p hm' ↔ hm' = hm) ∧
      (∀ hm', DrawsChallenge f sha512 pk msg p' hm' ↔ hm' = hm) ∧
      (∃ s2 h, Accepted pk.1 (p.drop 2) hm s2 h) ∧ ∃ s2 h, Accepted pk.1 (p'.drop 2) hm s2 h := by
  obtain ⟨hm, s2, h, hdraw, hacc⟩ := exists_drawsChallenge K hp
  obtain ⟨hm', s2', h', hdraw', hacc'⟩ := exists_drawsChallenge K hp'
  obtain rfl := hdraw.unique hdraw' hv
  refine ⟨hashedSalt_eq p, ?_, hm, ?_, ?_, ⟨s2, h, hacc⟩, s2', h', hacc'⟩
  · rw [hashedSalt_eq, hashedSalt_eq, hv]
  · intro hm'
    exact ⟨fun hd => hd.unique hdraw rfl, fun he => he ▸ hdraw⟩
  · intro hm'
    exact ⟨fun hd => hd.unique hdraw' rfl, fun he => he ▸ hdraw'⟩

end

/-- A proof with a given salt version. -/
def versionProof (version : UInt8) (body : List UInt8) : List UInt8 := 0xB9 :: version :: body

/-- A function on sponge states that moves the first byte to the second place and clears all others. -/
def versionPerm : Lanes → Lanes := fun A j => if j.val = 0 then (A 0 &&& 0xFF) <<< 8 else 0

/-- The state after the permutation of a state with the given first byte. -/
def versionState (version : UInt8) : Lanes := fun j => if j.val = 0 then version.toUInt64 <<< 8 else 0

/-- The challenge of the zero transcript. -/
def versionPoint (version : UInt8) : List UInt16 :=
  (List.range 512).map fun j => if j = 0 then version.toUInt16 else 0

private theorem xorByte_lane_zero (A : Lanes) {i : ℕ} (hi : 8 ≤ i) (b : UInt8) : xorByte A i b 0 = A 0 := by
  have hlane : i >>> 3 ≠ 0 := by
    rw [Nat.shiftRight_eq_div_pow]
    omega
  exact if_neg hlane.symm

/-- Bytes from position 8 on leave the first lane of a block as it is. -/
private theorem absorb_lane_zero (f : Lanes → Lanes) {A : Lanes} {i : ℕ} (hi : 8 ≤ i) {bs : List UInt8}
    (hl : i + bs.length < 136) : (Sponge.absorb f xorByte 136 (A, i) bs).1 0 = A 0 := by
  induction bs generalizing A i with
  | nil => rfl
  | cons b bs ih =>
    rw [List.length_cons] at hl
    rw [Sponge.absorb, List.foldl_cons, ← Sponge.absorb, Sponge.absorbByte, if_neg (show ¬ i + 1 = 136 by omega),
      ih (by omega) (by omega), xorByte_lane_zero _ hi]

/-- The first lane of one block, padded, is given by its first eight bytes. -/
private theorem padded_lane_zero (f : Lanes → Lanes) {as bs : List UInt8} (ha : as.length = 8) (hl : bs.length < 128) :
    xorByte (xorByte (Shake256.absorbed f (as ++ bs)).1 (Shake256.absorbed f (as ++ bs)).2 0x1F) 135 0x80 0 =
      (Shake256.absorbed f as).1 0 := by
  have hsnd : ∀ cs : List UInt8, cs.length < 136 → (Shake256.absorbed f cs).2 = cs.length := by
    intro cs hcs
    have h := Sponge.absorb_snd_of_lt f xorByte Shake256.init.A (show 0 + cs.length < 136 by omega)
    rwa [Nat.zero_add] at h
  have hlen : (as ++ bs).length = 8 + bs.length := by rw [List.length_append, ha]
  have happend : Shake256.absorbed f (as ++ bs) =
      Sponge.absorb f xorByte 136 ((Shake256.absorbed f as).1, (Shake256.absorbed f as).2) bs :=
    Sponge.absorb_append f xorByte 136 _ as bs
  rw [xorByte_lane_zero _ (by omega), hsnd _ (by omega), xorByte_lane_zero _ (by omega), happend, hsnd _ (by omega),
    absorb_lane_zero f (by omega) (by omega)]

private theorem versionPerm_padded {v : UInt8} (hv : v = 0 ∨ v = 1) :
    let st := Shake256.absorbed versionPerm (writeSalt v ++ List.replicate 64 0)
    versionPerm (xorByte (xorByte st.1 st.2 0x1F) 135 0x80) = versionState v := by
  have hsplit : writeSalt v ++ List.replicate 64 0 =
      (writeSalt v).take 8 ++ ((writeSalt v).drop 8 ++ List.replicate 64 0) := by
    rw [← List.append_assoc, List.take_append_drop]
  have hlane : (Shake256.absorbed versionPerm ((writeSalt v).take 8)).1 0 &&& 0xFF = v.toUInt64 := by
    rcases hv with rfl | rfl
    · decide +kernel
    · decide +kernel
  have htake : ((writeSalt v).take 8).length = 8 := rfl
  have hdrop : ((writeSalt v).drop 8 ++ List.replicate 64 0).length < 128 := by
    rw [List.length_append, List.length_replicate, List.length_drop, show (writeSalt v).length = 40 from rfl]
    omega
  simp only
  rw [hsplit]
  funext j
  rw [versionPerm, padded_lane_zero versionPerm htake hdrop, hlane, versionState]

private theorem versionPerm_versionState {v : UInt8} (hv : v = 0 ∨ v = 1) :
    versionPerm (versionState v) = fun _ => 0 := by
  rcases hv with rfl | rfl <;> decide +kernel

private theorem versionPerm_zero : versionPerm (fun _ => 0) = fun _ => 0 := by
  decide +kernel

/-- The second byte of the output is the version; all others are zero. -/
private theorem keystream_versionPerm {v : UInt8} (hv : v = 0 ∨ v = 1) (p : ℕ) :
    Shake256.keystream versionPerm (writeSalt v ++ List.replicate 64 0) p = if p = 1 then v else 0 := by
  rw [Shake256.keystream, Sponge.stream, Function.iterate_succ_apply, versionPerm_padded hv]
  by_cases hp : p < 136
  · have hbyte : ∀ p < 136, getByte (versionState v) p = if p = 1 then v else 0 := by
      rcases hv with rfl | rfl <;> decide +kernel
    rw [Nat.div_eq_of_lt hp, Nat.mod_eq_of_lt hp, Function.iterate_zero_apply, hbyte p hp]
  · obtain ⟨k, hk⟩ : ∃ k, p / 136 = k + 1 := ⟨p / 136 - 1, by omega⟩
    rw [hk, Function.iterate_succ_apply, versionPerm_versionState hv, Function.iterate_fixed versionPerm_zero,
      if_neg (by omega)]
    exact getByte_zero _

/-- The challenge for the salt version `v` and the zero transcript. -/
private theorem hashToPointVartime_versionPerm {v : UInt8} (hv : v = 0 ∨ v = 1) :
    ∃ fuel, hashToPointVartime versionPerm fuel (Shake256.seeded versionPerm [writeSalt v, List.replicate 64 0]) 9 =
      some (versionPoint v) := by
  rw [hashToPointVartime_iff]
  refine Sampling.first_of_forall_lt fun j _ => ?_
  rw [List.flatten_cons, List.flatten_cons, List.flatten_nil, List.append_nil, draws, sampleAt,
    keystream_versionPerm hv, keystream_versionPerm hv, if_neg (by omega)]
  by_cases hj : j = 0
  · rw [if_pos (by omega), if_pos hj]
    rcases hv with rfl | rfl <;> simp [acceptSample]
  · rw [if_neg (by omega), if_neg hj]
    simp [acceptSample]

/-- Under the zero key a short polynomial is accepted with the salt versions 0 and 1. -/
private theorem vrfAccepts_versionProof {v : UInt8} (hv : v = 0 ∨ v = 1) {body : List UInt8} {s2 : List Int16}
    (hl : body.length ≤ 711) (hbody : compDecode 9 body = some (s2, body.length))
    (hs : ∑ u ∈ Finset.range 512, normSq (ofInt16 (rd s2 u)) ≤ 1048576) :
    VRFAccepts zeroHash versionPerm (fun _ => ⟨List.replicate 64 0, rfl⟩) zeroPubkey [] .SHAKE (versionProof v body) ∧
      DrawsChallenge versionPerm (fun _ => ⟨List.replicate 64 0, rfl⟩) zeroPubkey [] (versionProof v body)
        (versionPoint v) := by
  obtain ⟨fuel, hp⟩ := hashToPointVartime_versionPerm hv
  have hcoeff : ∀ u < 512, coeffPoly (versionPoint v) u = toZq (if u = 0 then v.toUInt16 else 0).toUInt32 := by
    intro u hu
    rw [coeffPoly, versionPoint, rd_map_range _ hu]
  have hnorm : ∑ u ∈ Finset.range 512, normSq (coeffPoly (versionPoint v) u) ≤ 1 := by
    rw [sum_normSq_const, hcoeff 0 (by omega)]
    · rcases hv with rfl | rfl <;> decide
    · intro u hu h0
      rw [hcoeff u hu, if_neg h0]
      rfl
  have hrep : Rep 512 (versionPoint v) (coeffPoly (versionPoint v)) :=
    first_draws_rep ((hashToPointVartime_iff versionPerm _ 9 _).1 ⟨fuel, hp⟩)
  constructor
  · exact (vrfAccepts_iff zeroHash versionPerm _).2
      ⟨fuel, verifyCompressed_of_parts v hl hp (accepted_zeroPubkey hbody hrep (by omega))⟩
  · exact drawsChallenge_iff.2 ⟨fuel, hp⟩

private theorem vrfAccepts_versionProof_zeroBody {v : UInt8} (hv : v = 0 ∨ v = 1) :
    VRFAccepts zeroHash versionPerm (fun _ => ⟨List.replicate 64 0, rfl⟩) zeroPubkey [] .SHAKE
        (versionProof v zeroBody) ∧
      DrawsChallenge versionPerm (fun _ => ⟨List.replicate 64 0, rfl⟩) zeroPubkey [] (versionProof v zeroBody)
        (versionPoint v) := by
  have hlen := length_zeroBody
  have hs := sum_normSq_zero
  exact vrfAccepts_versionProof hv (by omega) compDecode_zeroBody (by omega)

private theorem vrfAccepts_versionProof_cons_zeroBody {v : UInt8} (hv : v = 0 ∨ v = 1) :
    VRFAccepts zeroHash versionPerm (fun _ => ⟨List.replicate 64 0, rfl⟩) zeroPubkey [] .SHAKE
      (versionProof v (0 :: zeroBody)) := by
  have hlen : (0 :: zeroBody).length = 577 := by rw [List.length_cons, length_zeroBody]
  have hs := sum_normSq_shiftedZero
  exact (vrfAccepts_versionProof hv (by omega) compDecode_cons_zeroBody (by omega)).1

/-- Two accepted proofs for one public key and one message that are checked against different challenges. -/
theorem challenge_varies : ∃ hm hm',
    VRFAccepts zeroHash versionPerm (fun _ => ⟨List.replicate 64 0, rfl⟩) zeroPubkey [] .SHAKE
      (versionProof 0 zeroBody) ∧
    VRFAccepts zeroHash versionPerm (fun _ => ⟨List.replicate 64 0, rfl⟩) zeroPubkey [] .SHAKE
      (versionProof 1 zeroBody) ∧
    DrawsChallenge versionPerm (fun _ => ⟨List.replicate 64 0, rfl⟩) zeroPubkey [] (versionProof 0 zeroBody) hm ∧
    DrawsChallenge versionPerm (fun _ => ⟨List.replicate 64 0, rfl⟩) zeroPubkey [] (versionProof 1 zeroBody) hm' ∧
    hm ≠ hm' ∧ hashedSalt (versionProof 1 zeroBody) ≠ writeSalt 0 := by
  obtain ⟨hacc, hdraw⟩ := vrfAccepts_versionProof_zeroBody (.inl rfl)
  obtain ⟨hacc', hdraw'⟩ := vrfAccepts_versionProof_zeroBody (.inr rfl)
  refine ⟨versionPoint 0, versionPoint 1, hacc, hacc', hdraw, hdraw', ?_, ?_⟩
  · intro h
    have h0 := congrArg (fun l => rd l 0) h
    simp only [versionPoint, rd_map_range _ (show 0 < 512 by omega)] at h0
    exact absurd h0 (by decide)
  · rw [hashedSalt_eq]
    decide

theorem challenge_of_version_zero :
    hashedSalt (versionProof 0 zeroBody) = 0x00 :: 0x09 :: saltRest ∧
    hashedSalt (versionProof 0 (0 :: zeroBody)) = hashedSalt (versionProof 0 zeroBody) ∧
    ∃ hm, (∀ hm', DrawsChallenge versionPerm (fun _ => ⟨List.replicate 64 0, rfl⟩) zeroPubkey []
        (versionProof 0 zeroBody) hm' ↔ hm' = hm) ∧
      (∀ hm', DrawsChallenge versionPerm (fun _ => ⟨List.replicate 64 0, rfl⟩) zeroPubkey []
        (versionProof 0 (0 :: zeroBody)) hm' ↔ hm' = hm) ∧
      (∃ s2 h, Accepted zeroPubkey.1 ((versionProof 0 zeroBody).drop 2) hm s2 h) ∧
      ∃ s2 h, Accepted zeroPubkey.1 ((versionProof 0 (0 :: zeroBody)).drop 2) hm s2 h :=
  challenge_of_version zeroHash (vrfAccepts_versionProof_zeroBody (.inl rfl)).1
    (vrfAccepts_versionProof_cons_zeroBody (.inl rfl)) rfl

/-! ### Preimages of SHA-512 -/

theorem proveInput_eq_iff {pk pk' : ByteVec 897} {msg msg' : List UInt8} :
    proveInput pk msg = proveInput pk' msg' ↔ pk = pk' ∧ msg = msg' := by
  constructor
  · intro h
    rw [proveInput, proveInput, List.append_assoc, List.append_assoc] at h
    obtain ⟨hpk, hmsg⟩ := List.append_inj (List.append_cancel_left h) (pk.2.trans pk'.2.symm)
    exact ⟨Subtype.ext hpk, hmsg⟩
  · rintro ⟨rfl, rfl⟩
    rfl

theorem betaInput_eq_iff {pk pk' : ByteVec 897} {msg msg' proof proof' : List UInt8} :
    betaInput pk msg proof = betaInput pk' msg' proof' ↔ pk = pk' ∧ msg ++ proof = msg' ++ proof' := by
  constructor
  · intro h
    simp only [betaInput, List.append_assoc] at h
    obtain ⟨hpk, hmsg⟩ := List.append_inj (List.append_cancel_left h) (pk.2.trans pk'.2.symm)
    exact ⟨Subtype.ext hpk, hmsg⟩
  · rintro ⟨rfl, h⟩
    rw [betaInput, List.append_assoc, h, ← List.append_assoc, betaInput]

/-- The domains differ in byte 11. -/
private theorem proveInput_ne_betaInput (pk pk' : ByteVec 897) (msg msg' proof : List UInt8) :
    proveInput pk msg ≠ betaInput pk' msg' proof := by
  intro h
  have hbyte := congrArg (fun l => l[11]?) h
  exact absurd hbyte (by simp [proveInput, betaInput, vrfDomainProve, vrfDomainBeta])

/-- The message and the proof are determined by their concatenation and the length of either. -/
private theorem append_eq_append_of_length {msg msg' proof proof' : List UInt8} (h : msg ++ proof = msg' ++ proof')
    (hl : msg.length = msg'.length ∨ proof.length = proof'.length) : msg = msg' ∧ proof = proof' := by
  rcases hl with hl | hl
  · exact List.append_inj h hl
  · exact List.append_inj' h hl

theorem hashInputs_eq_iff (pk pk' : ByteVec 897) (msg msg' proof proof' : List UInt8) :
    (proveInput pk msg = proveInput pk' msg' ↔ pk = pk' ∧ msg = msg') ∧
    (betaInput pk msg proof = betaInput pk' msg' proof' ↔ pk = pk' ∧ msg ++ proof = msg' ++ proof') ∧
    (betaInput pk msg proof = betaInput pk' msg' proof' ∧
        (msg.length = msg'.length ∨ proof.length = proof'.length) ↔
      pk = pk' ∧ msg = msg' ∧ proof = proof') ∧
    proveInput pk msg ≠ betaInput pk' msg' proof' := by
  refine ⟨proveInput_eq_iff, betaInput_eq_iff, ?_, proveInput_ne_betaInput pk pk' msg msg' proof'⟩
  constructor
  · rintro ⟨h, hl⟩
    obtain ⟨hpk, hcat⟩ := betaInput_eq_iff.1 h
    exact ⟨hpk, append_eq_append_of_length hcat hl⟩
  · rintro ⟨rfl, rfl, rfl⟩
    exact ⟨rfl, .inl rfl⟩

private theorem cons_zeroProof :
    0x39 :: zeroProof = 0x39 :: ((0x39 :: List.replicate 39 0) ++ (0 :: zeroBody)) := by
  have hsucc : List.replicate 40 (0 : UInt8) = List.replicate 39 0 ++ [0] := List.replicate_succ'
  rw [zeroProof, hsucc, List.append_assoc, List.cons_append, List.cons_append, List.nil_append]

/-- Under the zero key and the zero hash the proof `0x39 :: zeroProof` is accepted as well. -/
private theorem vrfAccepts_cons_zeroProof (f : Lanes → Lanes) (sha512 : List UInt8 → ByteVec 64) (msg : List UInt8) :
    VRFAccepts zeroHash f sha512 zeroPubkey msg .Keccak (0x39 :: zeroProof) := by
  have hn : (0x39 :: List.replicate 39 (0 : UInt8)).length = 40 := by rw [List.length_cons, List.length_replicate]
  obtain ⟨fuel, hp⟩ := keccakHashToPointVartime_zeroHash
    [0x39 :: List.replicate 39 0, (makeVRFProveTranscript sha512 zeroPubkey msg).1]
  obtain ⟨c, hc, hzero⟩ := exists_rep_zero
  have hs := sum_normSq_shiftedZero
  have hv := verifyCompressedKeccak_of_parts ⟨_, hn⟩ hp (accepted_zeroPubkey compDecode_cons_zeroBody hc (by omega))
  rw [cons_zeroProof]
  exact (vrfAccepts_iff zeroHash f sha512).2 ⟨fuel, hv⟩

/-- Two accepted proofs of different messages whose outputs are the hash of one byte string. -/
theorem betaInput_collision :
    VRFAccepts zeroHash id (fun _ => ⟨List.replicate 64 0, rfl⟩) zeroPubkey [] .Keccak (0x39 :: zeroProof) ∧
    VRFAccepts zeroHash id (fun _ => ⟨List.replicate 64 0, rfl⟩) zeroPubkey [0x39] .Keccak zeroProof ∧
    betaInput zeroPubkey [] (0x39 :: zeroProof) = betaInput zeroPubkey [0x39] zeroProof ∧
    ([] : List UInt8) ≠ [0x39] :=
  ⟨vrfAccepts_cons_zeroProof id _ [], vrfAccepts_zeroProof id _ [0x39], betaInput_eq_iff.2 ⟨rfl, rfl⟩, by decide⟩

end DfVrf
