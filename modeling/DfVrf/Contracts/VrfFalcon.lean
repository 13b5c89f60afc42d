import DfVrf.Contracts.FalconCore
import DfVrf.Contracts.HashToPoint

/-!
# The on-chain verifiers (`DFVRF_vrf_falcon.sol`, `DFVRF_vrf_falcon_evm.sol`, `DFVRF_vrf_falcon_evm_onchain_ntt.sol`)

The first two contracts differ in the function that hashes the transcript to a point; the third computes the
transform of the public key itself.  A call returns a boolean or reverts with a message; `none` means that the
hashing has not ended.
-/

namespace DfVrf.Contracts

open Negacyclic Word

/-- `ZKNOX_vrf_falcon.verify` and `ZKNOX_vrf_falcon_evm.verify`; `fmp` is the free memory pointer after the
hashing. -/
def verifyWith (hashToPoint : List UInt8 → List UInt8 → Option (List Word)) (fmp : ℕ) (transcript salt : List UInt8)
    (s2 ntth : List Word) : Option (Except String Bool) :=
  if salt.length ≠ 40 then some (.error "invalid salt length")
  else if s2.length ≠ 32 then some (.error "invalid s2 length")
  else if ntth.length ≠ 32 then some (.error "invalid ntth length")
  else
    match hashToPoint salt transcript with
    | none => none
    | some hashed => some (.ok (falconCore fmp s2 ntth hashed))

/-- `ZKNOX_vrf_falcon.verify`. -/
def vrfFalconVerify (f : Lanes → Lanes) (fuel fmp : ℕ) (transcript salt : List UInt8) (s2 ntth : List Word) :
    Option (Except String Bool) :=
  verifyWith (hashToPointNIST f fuel) fmp transcript salt s2 ntth

/-- `ZKNOX_vrf_falcon_evm.verify`. -/
def vrfFalconEvmVerify (K : Crypto.Keccak256) (fuel fmp : ℕ) (transcript salt : List UInt8) (s2 ntth : List Word) :
    Option (Except String Bool) :=
  verifyWith (hashToPointEVM K fuel) fmp transcript salt s2 ntth

/-- `ZKNOX_vrf_falcon_evm_onchain_ntt.verify`; `fmp` is the free memory pointer before the call of `falcon_core`. -/
def onchainNttVerify (K : Crypto.Keccak256) (fuel fmp : ℕ) (transcript salt : List UInt8) (s2 h : List Word) :
    Option (Except String Bool) :=
  if salt.length ≠ 40 then some (.error "invalid salt length")
  else if s2.length ≠ 32 then some (.error "invalid s2 length")
  else if h.length ≠ 32 then some (.error "invalid h length")
  else
    match hashToPointEVM K fuel salt transcript with
    | none => none
    | some hashed =>
      let ntth := nttCompact (nttfw (nttExpand h))
      some (.ok (falconCore fmp s2 ntth hashed))

/-- `falcon_core` behaves alike wherever its arrays are allocated. -/
private theorem falconCore_fmp (fmp fmp' : ℕ) (s2 ntth hashed : List Word) :
    falconCore fmp s2 ntth hashed = falconCore fmp' s2 ntth hashed := by
  simp only [falconCore, falconNormalize, offsets_of_le (le_halfmulResultPtr _), List.foldl_nil]

/-- For a packed key of 32 words the contract agrees with the one that is given the transform of the key. -/
theorem onchainNttVerify_eq (K : Crypto.Keccak256) (fuel fmp fmp' : ℕ) (transcript salt : List UInt8)
    (s2 : List Word) {h : List Word} (hl : h.length = 32) :
    onchainNttVerify K fuel fmp transcript salt s2 h =
      vrfFalconEvmVerify K fuel fmp' transcript salt s2 (nttCompact (nttfw (nttExpand h))) := by
  simp only [onchainNttVerify, vrfFalconEvmVerify, verifyWith, hl, length_nttCompact, falconCore_fmp fmp fmp', ne_eq,
    not_true_eq_false, if_false]

/-- A proof is accepted exactly when the lengths are right and `falcon_core` accepts the hashed point. -/
theorem verifyWith_eq_true {hashToPoint : List UInt8 → List UInt8 → Option (List Word)} {fmp : ℕ}
    {transcript salt : List UInt8} {s2 ntth : List Word} :
    verifyWith hashToPoint fmp transcript salt s2 ntth = some (.ok true) ↔
      salt.length = 40 ∧ s2.length = 32 ∧ ntth.length = 32 ∧
        ∃ hashed, hashToPoint salt transcript = some hashed ∧ falconCore fmp s2 ntth hashed = true := by
  unfold verifyWith
  split
  · simp [*]
  · split
    · simp [*]
    · split
      · simp [*]
      · split
        · simp [*]
        · rename_i h1 h2 h3 _ hashed hp
          rw [not_not] at h1 h2 h3
          simp [h1, h2, h3, hp]

/-- Arrays whose slots agree modulo `q` are treated alike. -/
private theorem falconCore_congr (fmp : ℕ) {s2 s2' : List Word} (hl : s2.length = 32) (hl' : s2'.length = 32)
    (h : ∀ e < 512, ofWord (slots s2 e) = ofWord (slots s2' e)) (ntth hashed : List Word) :
    falconCore fmp s2 ntth hashed = falconCore fmp s2' ntth hashed := by
  rw [falconCore, falconCore]
  simp only [hl, hl', halfmul_congr h ntth]
  rw [falconNormalize_congr (le_halfmulResultPtr fmp) _ s2 s2']

theorem verifyWith_congr {hashToPoint : List UInt8 → List UInt8 → Option (List Word)} {fmp : ℕ}
    {transcript salt : List UInt8} {s2 s2' ntth : List Word} (hl : s2.length = s2'.length)
    (h : ∀ e < 512, ofWord (slots s2 e) = ofWord (slots s2' e))
    (ha : verifyWith hashToPoint fmp transcript salt s2 ntth = some (.ok true)) :
    verifyWith hashToPoint fmp transcript salt s2' ntth = some (.ok true) := by
  obtain ⟨h1, h2, h3, hashed, hp, hcore⟩ := verifyWith_eq_true.1 ha
  have h2' : s2'.length = 32 := hl.symm.trans h2
  rw [falconCore_congr fmp h2 h2' h] at hcore
  exact verifyWith_eq_true.2 ⟨h1, h2', h3, hashed, hp, hcore⟩

end DfVrf.Contracts
