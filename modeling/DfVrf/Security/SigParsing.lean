import DfVrf.Agreement.Epervier
import DfVrf.Contracts.SigVerifier

/-!
# Encodings of signatures for the byte interface

A signature for `verify(bytes,bytes32,bytes)` is a packed salt and polynomial.  The length of the polynomial is rounded
down to whole words, so that up to 31 bytes behind a packed signature are not looked at.

* `sigExact_iff`: only packed signatures are accepted, apart from those with such bytes.
* `padded_onePoly`: for every digest that can be hashed there is a key under which such a signature is accepted.
-/

namespace DfVrf

open InPlace Word Negacyclic Crypto Contracts Go

section

variable (verifyWords : VerifyWords) (readKey : Address → Option (List Word)) (beyond : ℕ → UInt8)
  (pubkey : List UInt8) (digest : Word) (bs : CalldataBytes)

/-- If the signature is accepted, it is the packing of a salt and 32 words that the verifier on words accepts. -/
def SigExact (mem : Memory) (sig : ℕ) : Prop :=
  verifyBytes verifyWords readKey mem sig beyond pubkey digest bs = some (.ok verifySelector) →
    ∃ salt s2 ntth, salt.length = 40 ∧ s2.length = 32 ∧ packSignature salt s2 = some bs.1 ∧ bs.1.length = 1064 ∧
      readKey (pkContractAddress beyond pubkey) = some ntth ∧ verifyWords (bytes digest) salt s2 ntth = some (.ok true)

/-- Up to 31 bytes follow a salt and 32 words that the verifier on words accepts. -/
def Padded : Prop :=
  1064 < bs.1.length ∧ bs.1.length < 1096 ∧ ∃ ntth, readKey (pkContractAddress beyond pubkey) = some ntth ∧
    verifyWords (bytes digest) (bs.1.take 40) (wordsOfBytes (bs.1.drop 40)) ntth = some (.ok true)

end

/-- Parsing is exact for those signatures that are not padded. -/
private theorem sigExact_verifyWith (hashToPoint : List UInt8 → List UInt8 → Option (List Word)) (fmp : ℕ)
    (readKey : Address → Option (List Word)) (beyond : ℕ → UInt8) (pubkey : List UInt8) (digest : Word)
    (bs : CalldataBytes) (mem : Memory) (sig : ℕ) :
    SigExact (verifyWith hashToPoint fmp) readKey beyond pubkey digest bs mem sig ↔
      ¬ Padded (verifyWith hashToPoint fmp) readKey beyond pubkey digest bs := by
  rw [SigExact, verifyBytes_eq_selector_iff, Padded]
  constructor
  · rintro hexact ⟨h1, h2, hv⟩
    obtain ⟨_, _, _, _, _, _, hlen, _⟩ := hexact ⟨by omega, h2, hv⟩
    omega
  · rintro hpad ⟨h1, h2, ntth, hkey, hv⟩
    have hlen : bs.1.length = 1064 := by
      by_contra hc
      exact hpad ⟨by omega, h2, ntth, hkey, hv⟩
    refine ⟨bs.1.take 40, wordsOfBytes (bs.1.drop 40), ntth, ?_, ?_, packSignature_take_drop hlen, hlen, hkey, hv⟩
    · rw [List.length_take]
      omega
    · rw [length_wordsOfBytes, List.length_drop, hlen]

/-- For both contracts, parsing is exact for those signatures that are not padded. -/
theorem sigExact_iff (K : Keccak256) (f : Lanes → Lanes) (fuel fmp : ℕ) (readKey : Address → Option (List Word))
    (beyond : ℕ → UInt8) (pubkey : List UInt8) (digest : Word) (bs : CalldataBytes) (mem : Memory) (sig : ℕ) :
    (SigExact (ethfalconVerifyWords K fuel fmp) readKey beyond pubkey digest bs mem sig ↔
      ¬ Padded (ethfalconVerifyWords K fuel fmp) readKey beyond pubkey digest bs) ∧
    (SigExact (falconVerifyWords f fuel fmp) readKey beyond pubkey digest bs mem sig ↔
      ¬ Padded (falconVerifyWords f fuel fmp) readKey beyond pubkey digest bs) :=
  ⟨sigExact_verifyWith _ _ _ _ _ _ _ _ _, sigExact_verifyWith _ _ _ _ _ _ _ _ _⟩

/-! ### Padded signatures -/

/-- Under the transform of the hashed point as the key, the polynomial `1` is accepted. -/
private theorem verifyWith_onePoly {hashToPoint : List UInt8 → List UInt8 → Option (List Word)}
    {transcript : List UInt8}
    (salt : ByteVec 40) {hashed : List Word} (hp : hashToPoint salt.1 transcript = some hashed)
    (hrep : WordRep 512 hashed (wordPoly hashed)) (fmp : ℕ) :
    verifyWith hashToPoint fmp transcript salt.1 onePoly.words (nttCompact (nttfw hashed)) = some (.ok true) := by
  have hkey : ∀ e < 512, ofWord (slots (nttCompact (nttfw hashed)) e) = fwd twiddle 9 9 (wordPoly hashed) e :=
    fun e he => (slots_nttCompact_rep (nttfw_rep hrep) he).2
  refine verifyWith_eq_true.2 ⟨salt.2, onePoly.length, length_nttCompact _, hashed, hp, ?_⟩
  have hiff := falconCore_iff fmp onePoly.length hkey hrep
  rw [hiff, Finset.sum_eq_zero]
  · omega
  · intro i hi
    have hi := Finset.mem_range.1 hi
    have hmul : mulMod 512 (fun e => ofWord (slots onePoly.words e)) (wordPoly hashed) i = wordPoly hashed i :=
      mulMod_onePoly _ (by omega)
    rw [hmul, sub_self]
    rfl

/-- The words of packed words, and of less than a word behind them. -/
private theorem wordsOfBytes_flatMap_bytes (ws : List Word) {pad : List UInt8} (hp : pad.length < 32) :
    wordsOfBytes (ws.flatMap bytes ++ pad) = ws := by
  induction ws with
  | nil =>
    apply List.eq_nil_of_length_eq_zero
    rw [length_wordsOfBytes, List.flatMap_nil, List.nil_append]
    omega
  | cons w ws ih =>
    have hlen : (w :: ws).flatMap bytes ++ pad = bytes w ++ (ws.flatMap bytes ++ pad) := by
      rw [List.flatMap_cons, List.append_assoc]
    rw [hlen, wordsOfBytes_append (length_bytes w), ofBytes_bytes, ih]

/-- For every digest that can be hashed there is a key under which a padded signature passes for a signature. -/
theorem padded_onePoly {hashToPoint : List UInt8 → List UInt8 → Option (List Word)} {digest : Word}
    (salt : ByteVec 40) {hashed : List Word} (hp : hashToPoint salt.1 (bytes digest) = some hashed)
    (hrep : WordRep 512 hashed (wordPoly hashed)) (fmp : ℕ) (beyond : ℕ → UInt8) (pubkey : List UInt8)
    {bs : CalldataBytes} {pad : List UInt8} (hpad : 0 < pad.length ∧ pad.length < 32)
    (hbs : bs.1 = salt.1 ++ (onePoly.words.flatMap bytes ++ pad)) :
    Padded (verifyWith hashToPoint fmp) (fun _ => some (nttCompact (nttfw hashed))) beyond pubkey digest bs := by
  have htake : bs.1.take 40 = salt.1 := by rw [hbs, List.take_left' salt.2]
  have hdrop : bs.1.drop 40 = onePoly.words.flatMap bytes ++ pad := by rw [hbs, List.drop_left' salt.2]
  have hlen : (onePoly.words.flatMap bytes).length = 1024 := by simp [onePoly]
  have hbslen : bs.1.length = 1064 + pad.length := by
    rw [hbs, List.length_append, List.length_append, salt.2, hlen]
    omega
  refine ⟨by omega, by omega, _, rfl, ?_⟩
  rw [htake, hdrop, wordsOfBytes_flatMap_bytes _ hpad.2]
  exact verifyWith_onePoly salt hp hrep fmp

/-- A signature of zeros, with one byte more than a packed one. -/
def zeroSig : CalldataBytes := ⟨List.replicate 1065 0, by rw [List.length_replicate]; omega⟩

/-- Under the transform of the zero polynomial as the key, both contracts accept 1065 zeros for a challenge of zeros. -/
theorem not_sigExact_zeroSig : ∃ fuel fuel',
    ¬ SigExact (ethfalconVerifyWords zeroHash fuel 128) (fun _ => some (packUint16Coeffs (mqNtt zeroPoly.coeffs 9)))
      (fun _ => 0) (List.replicate 20 1) 0 zeroSig (fun _ => 0) 128 ∧
    ¬ SigExact (falconVerifyWords zeroPerm fuel' 128) (fun _ => some (packUint16Coeffs (mqNtt zeroPoly.coeffs 9)))
      (fun _ => 0) (List.replicate 20 1) 0 zeroSig (fun _ => 0) 128 := by
  have hlen : zeroSig.1.length = 1065 := List.length_replicate
  have hsalt : (zeroSig.1.take 40).length = 40 := by rw [List.length_take, hlen, Nat.min_eq_left (by omega)]
  have hwords : (wordsOfBytes (zeroSig.1.drop 40)).length = 32 := by
    rw [length_wordsOfBytes, List.length_drop, hlen]
  obtain ⟨fuel, hp⟩ := hashToPointEVM_zeroHash (zeroSig.1.take 40) (bytes 0)
  obtain ⟨fuel', hp'⟩ := hashToPointNIST_zeroPerm (zeroSig.1.take 40) (bytes 0)
  refine ⟨fuel, fuel', ?_, ?_⟩
  · rw [ethfalconVerifyWords, sigExact_verifyWith, not_not]
    exact ⟨by omega, by omega, _, rfl, verifyWith_zeroPoly ⟨_, hsalt⟩ hp hwords 128⟩
  · rw [falconVerifyWords, sigExact_verifyWith, not_not]
    exact ⟨by omega, by omega, _, rfl, verifyWith_zeroPoly ⟨_, hsalt⟩ hp' hwords 128⟩

end DfVrf
