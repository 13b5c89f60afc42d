import DfVrf.Crypto.Deterministic

/-!
# The verifiable random function (`falcon.go`, `df_vrf.go`)

A proof is a signature of the transcript, the hash of the public key and the message; the output is the hash of
the public key, the message and the proof.  SHA-512, Keccak-256 and the permutation of SHAKE256 are parameters.
Errors are the messages of the Go code, with the wrapped error behind the colon.

* `vrfVerifyWithMode_eq_ok`: a proof is accepted exactly when the signature of the transcript is, and the output is
  the hash of the proof.
-/

namespace DfVrf.Go

open InPlace Crypto

/-- `Mode`; every other value of the Go type behaves as `ModeSHAKE`. -/
inductive Mode
  | SHAKE
  | Keccak
  deriving DecidableEq

def errVerifyFail : String := "falcon verify failed"
def errVRFVerifyFail : String := "falcon vrf verify failed"
def errVRFProofToHashFail : String := "falcon vrf proof-to-hash failed"

/-- `vrfDomainProve`: "FALCON-VRF-PROVE-v1". -/
def vrfDomainProve : List UInt8 :=
  [0x46, 0x41, 0x4C, 0x43, 0x4F, 0x4E, 0x2D, 0x56, 0x52, 0x46, 0x2D, 0x50, 0x52, 0x4F, 0x56, 0x45, 0x2D, 0x76, 0x31]

/-- `vrfDomainBeta`: "FALCON-VRF-BETA-v1". -/
def vrfDomainBeta : List UInt8 :=
  [0x46, 0x41, 0x4C, 0x43, 0x4F, 0x4E, 0x2D, 0x56, 0x52, 0x46, 0x2D, 0x42, 0x45, 0x54, 0x41, 0x2D, 0x76, 0x31]

/-- The bytes that `makeVRFProveTranscript` writes to SHA-512. -/
def proveInput (pk : ByteVec 897) (msg : List UInt8) : List UInt8 := vrfDomainProve ++ pk.1 ++ msg

/-- The bytes that `VRFProofToHash` writes to SHA-512. -/
def betaInput (pk : ByteVec 897) (msg proof : List UInt8) : List UInt8 := vrfDomainBeta ++ pk.1 ++ msg ++ proof

section

variable (K : Keccak256) (f : Lanes → Lanes) (sha512 : List UInt8 → ByteVec 64)

/-- The call of the C code in `VerifyWithMode`. -/
def verifyMode (fuel : ℕ) (pk : ByteVec 897) (signature msg : List UInt8) : Mode → Option ℤ
  | .Keccak => verifyCompressedKeccak K fuel signature pk msg
  | .SHAKE => verifyCompressed f fuel signature pk msg

/-- `VerifyWithMode`. -/
def verifyWithMode (fuel : ℕ) (pk : ByteVec 897) (signature msg : List UInt8) (mode : Mode) :
    Option (Except String Unit) :=
  if signature.length = 0 then some (.error ("empty signature: " ++ errVerifyFail))
  else
    (verifyMode K f fuel pk signature msg mode).map fun r =>
      if r ≠ 0 then .error ("error code " ++ toString r ++ ": " ++ errVerifyFail) else .ok ()

def makeVRFProveTranscript (pk : ByteVec 897) (msg : List UInt8) : ByteVec 64 := sha512 (proveInput pk msg)

/-- `VRFProofToHash`. -/
def vrfProofToHash (pk : Option (ByteVec 897)) (proof msg : List UInt8) : Except String (ByteVec 64) :=
  match pk with
  | none => .error ("nil public key: " ++ errVRFProofToHashFail)
  | some pk =>
    if proof.length = 0 then .error ("empty proof: " ++ errVRFProofToHashFail)
    else .ok (sha512 (betaInput pk msg proof))

/-- `VRFVerifyWithMode`. -/
def vrfVerifyWithMode (fuel : ℕ) (pk : Option (ByteVec 897)) (proof msg : List UInt8) (mode : Mode) :
    Option (Except String (ByteVec 64)) :=
  match pk with
  | none => some (.error ("nil public key: " ++ errVRFVerifyFail))
  | some pk =>
    if proof.length = 0 then some (.error ("empty proof: " ++ errVRFVerifyFail))
    else
      let transcript := makeVRFProveTranscript sha512 pk msg
      match verifyWithMode K f fuel pk proof transcript.1 mode with
      | none => none
      | some (.error err) => some (.error ("verify transcript signature: " ++ err))
      | some (.ok ()) =>
        match vrfProofToHash sha512 (some pk) proof msg with
        | .error err => some (.error ("derive beta: " ++ err))
        | .ok beta => some (.ok beta)

/-! ### Accepted proofs -/

/-- No empty signature is accepted. -/
theorem length_pos_of_verifyMode {fuel : ℕ} {pk : ByteVec 897} {sig data : List UInt8} {mode : Mode}
    (h : verifyMode K f fuel pk sig data mode = some 0) : sig.length ≠ 0 := by
  cases mode with
  | SHAKE =>
    obtain ⟨hl, _⟩ := (verifyCompressed_eq_zero f fuel sig pk data).1 h
    omega
  | Keccak =>
    obtain ⟨hl, _⟩ := (verifyCompressedKeccak_eq_zero K fuel sig pk data).1 h
    omega

private theorem verifyWithMode_eq_ok {fuel : ℕ} {pk : ByteVec 897} {sig msg : List UInt8} {mode : Mode} :
    verifyWithMode K f fuel pk sig msg mode = some (.ok ()) ↔ verifyMode K f fuel pk sig msg mode = some 0 := by
  rw [verifyWithMode]
  constructor
  · intro h
    split at h
    · exact absurd h (by simp)
    · obtain ⟨r, hr0, hif⟩ := Option.map_eq_some_iff.1 h
      by_cases h0 : r = 0
      · rw [hr0, h0]
      · rw [if_pos h0] at hif
        exact absurd hif (by simp)
  · intro h
    rw [if_neg (length_pos_of_verifyMode K f h), h]
    rfl

/-- A proof is accepted exactly when it is a signature of the transcript; the output is the hash of the proof. -/
theorem vrfVerifyWithMode_eq_ok {fuel : ℕ} {pk : ByteVec 897} {proof msg : List UInt8} {mode : Mode}
    {beta : ByteVec 64} : vrfVerifyWithMode K f sha512 fuel (some pk) proof msg mode = some (.ok beta) ↔
      verifyMode K f fuel pk proof (makeVRFProveTranscript sha512 pk msg).1 mode = some 0 ∧
        beta = sha512 (betaInput pk msg proof) := by
  rw [vrfVerifyWithMode]
  simp only
  constructor
  · intro h
    split at h
    · exact absurd h (by simp)
    · rename_i hlen
      split at h
      · exact absurd h (by simp)
      · exact absurd h (by simp)
      · rename_i hv
        rw [vrfProofToHash, if_neg hlen] at h
        exact ⟨(verifyWithMode_eq_ok K f).1 hv, by simpa using h.symm⟩
  · rintro ⟨hv, rfl⟩
    -- the check for an empty proof is made twice
    rw [if_neg (length_pos_of_verifyMode K f hv), (verifyWithMode_eq_ok K f).2 hv]
    simp only
    rw [vrfProofToHash, if_neg (length_pos_of_verifyMode K f hv)]

/-- The proof is accepted for the message in the mode. -/
def VRFAccepts (pk : ByteVec 897) (msg : List UInt8) (mode : Mode) (proof : List UInt8) : Prop :=
  ∃ fuel beta, vrfVerifyWithMode K f sha512 fuel (some pk) proof msg mode = some (.ok beta)

theorem vrfAccepts_iff {pk : ByteVec 897} {msg : List UInt8} {mode : Mode} {proof : List UInt8} :
    VRFAccepts K f sha512 pk msg mode proof ↔
      ∃ fuel, verifyMode K f fuel pk proof (makeVRFProveTranscript sha512 pk msg).1 mode = some 0 := by
  constructor
  · rintro ⟨fuel, beta, h⟩
    exact ⟨fuel, ((vrfVerifyWithMode_eq_ok K f sha512).1 h).1⟩
  · rintro ⟨fuel, h⟩
    exact ⟨fuel, _, (vrfVerifyWithMode_eq_ok K f sha512).2 ⟨h, rfl⟩⟩

end

end DfVrf.Go
