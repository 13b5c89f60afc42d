import DfVrf.Contracts.HashToPoint

/-!
# The two hash-to-point functions agree in C and Solidity

Both implementations return the first accepted values of one byte stream: the counter-mode expansion of the hash
of the input for Keccak-256, the output of the sponge for SHAKE256.  Hence they return the same 512 coefficients,
for every hash function and every permutation for which the sampling completes.

* `hashToPointEVM_eq_keccak`: for inputs that fit the buffer of the C generator.
* `hashToPointNIST_eq_shake`: for inputs of every length.
-/

namespace DfVrf

open Crypto Contracts

/-- A coefficient of the C code as a word. -/
def wordOfUInt16 (y : UInt16) : Word := BitVec.ofNat 256 y.toNat

/-- Coefficients drawn as words are the coefficients drawn as `uint16_t`. -/
theorem first_wordDraws_iff (stream : ℕ → UInt8) (need : ℕ) (xs : List Word) :
    Sampling.First (wordDraws stream) need xs ↔
      ∃ ys, Sampling.First (fun j => (draws stream j).map UInt16.ofNat) need ys ∧ xs = ys.map wordOfUInt16 := by
  have hword : ∀ zs, Sampling.First (draws stream) need zs →
      zs.map (BitVec.ofNat 256) = (zs.map UInt16.ofNat).map wordOfUInt16 := by
    intro zs hzs
    rw [List.map_map]
    apply List.map_congr_left
    intro z hz
    obtain ⟨j, hj⟩ := hzs.mem hz
    have hlt := draws_lt hj
    rw [Function.comp_apply, wordOfUInt16, UInt16.toNat_ofNat', Nat.mod_eq_of_lt (by omega)]
  constructor
  · intro h
    obtain ⟨zs, hzs, rfl⟩ := Sampling.first_map_iff.1 h
    exact ⟨zs.map UInt16.ofNat, hzs.map _, hword zs hzs⟩
  · rintro ⟨ys, hys, rfl⟩
    obtain ⟨zs, hzs, rfl⟩ := Sampling.first_map_iff.1 hys
    rw [← hword zs hzs]
    exact hzs.map _

/-! ### Keccak-256 -/

/-- What `hashToPointEVM` and the C code return for a salt and a transcript that fit the buffer. -/
theorem hashToPointEVM_eq_keccak (K : Keccak256) {salt transcript : List UInt8} (hs : salt.length = 40)
    (hl : 40 + transcript.length ≤ 4096) (xs : List Word) :
    (∃ fuel, hashToPointEVM K fuel salt transcript = some xs) ↔
      ∃ fuel ys, keccakHashToPointVartime K fuel (KeccakPrng.seeded K [salt, transcript]) 9 = some ys ∧
        xs = ys.map wordOfUInt16 := by
  have habs : KeccakPrng.absorbed [] [salt, transcript] = salt ++ transcript := by
    rw [KeccakPrng.absorbed_eq_append]
    · simp
    · simp [maxBufferSize, hs]
      omega
  have hC := keccakHashToPointVartime_iff K [salt, transcript] 9
  rw [habs] at hC
  rw [hashToPointEVM_iff, first_wordDraws_iff]
  constructor
  · rintro ⟨ys, hys, rfl⟩
    obtain ⟨fuel, hfuel⟩ := (hC ys).2 hys
    exact ⟨fuel, ys, hfuel, rfl⟩
  · rintro ⟨fuel, ys, hfuel, rfl⟩
    exact ⟨ys, (hC ys).1 ⟨fuel, hfuel⟩, rfl⟩

/-- With the zero hash the sampling completes, with the zero polynomial. -/
theorem hashToPointEVM_zeroHash (salt transcript : List UInt8) :
    ∃ fuel, hashToPointEVM zeroHash fuel salt transcript = some (List.replicate 512 0) := by
  rw [hashToPointEVM_iff]
  have h : ∀ j, wordDraws (KeccakPrng.keystream zeroHash (zeroHash (salt ++ transcript))) j = some 0 := by
    intro j
    rw [wordDraws, draws_zero (keystream_zeroHash _)]
    rfl
  exact Sampling.first_const h 512

theorem hashToPointEVM_eq_keccak_zeroHash :
    ∃ fuel ys, keccakHashToPointVartime zeroHash fuel
      (KeccakPrng.seeded zeroHash [List.replicate 40 7, List.replicate 64 1]) 9 = some ys ∧
        List.replicate 512 0 = ys.map wordOfUInt16 :=
  (hashToPointEVM_eq_keccak zeroHash List.length_replicate (by rw [List.length_replicate]; omega) _).1
    (hashToPointEVM_zeroHash (List.replicate 40 7) (List.replicate 64 1))

/-! ### SHAKE256 -/

/-- What `hashToPointNIST` and the C code return for a salt and a transcript. -/
theorem hashToPointNIST_eq_shake (f : Lanes → Lanes) (salt transcript : List UInt8) (xs : List Word) :
    (∃ fuel, hashToPointNIST f fuel salt transcript = some xs) ↔
      ∃ fuel ys, hashToPointVartime f fuel (Shake256.seeded f [salt, transcript]) 9 = some ys ∧
        xs = ys.map wordOfUInt16 := by
  have hC := hashToPointVartime_iff f [salt, transcript] 9
  rw [List.flatten_cons, List.flatten_cons, List.flatten_nil, List.append_nil] at hC
  rw [hashToPointNIST_iff, first_wordDraws_iff]
  constructor
  · rintro ⟨ys, hys, rfl⟩
    obtain ⟨fuel, hfuel⟩ := (hC ys).2 hys
    exact ⟨fuel, ys, hfuel, rfl⟩
  · rintro ⟨fuel, ys, hfuel, rfl⟩
    exact ⟨ys, (hC ys).1 ⟨fuel, hfuel⟩, rfl⟩

theorem hashToPointNIST_zeroPerm (salt transcript : List UInt8) :
    ∃ fuel, hashToPointNIST zeroPerm fuel salt transcript = some (List.replicate 512 0) := by
  rw [hashToPointNIST_iff]
  have h : ∀ j, wordDraws (Shake256.keystream zeroPerm (salt ++ transcript)) j = some 0 := by
    intro j
    rw [wordDraws, draws_zero (keystream_zeroPerm _)]
    rfl
  exact Sampling.first_const h 512

end DfVrf
