import DfVrf.Lib.Sampling
import DfVrf.Crypto.KeccakPrng
import DfVrf.Crypto.Shake

/-!
# Hashing to a polynomial in the C code (`common.c`)

`hash_to_point_vartime` and `keccak_hash_to_point_vartime` draw two bytes at a time from a generator in output
mode, until they have accepted `2 ^ logn` values below `61445`.  Either loop returns the first accepted values of
the output stream (`hashToPointVartime_iff`, `keccakHashToPointVartime_iff`).
-/

namespace DfVrf

/-- The coefficient drawn from a 16-bit sample, if the sample is accepted. -/
def acceptSample (w : ℕ) : Option ℕ := if w < 61445 then some (w % 12289) else none

/-- The sample `j` of a byte stream, most significant byte first. -/
def sampleAt (stream : ℕ → UInt8) (j : ℕ) : ℕ := (stream (2 * j)).toNat * 256 + (stream (2 * j + 1)).toNat

/-- The stream of draws from a byte stream. -/
def draws (stream : ℕ → UInt8) (j : ℕ) : Option ℕ := acceptSample (sampleAt stream j)

theorem draws_lt {stream : ℕ → UInt8} {j c : ℕ} (h : draws stream j = some c) : c < 12289 := by
  rw [draws, acceptSample] at h
  split at h
  · obtain rfl := Option.some.inj h
    exact Nat.mod_lt _ (by omega)
  · exact absurd h (by simp)

namespace Crypto

open InPlace

/-- `while (w >= 12289) w -= 12289`, with a bound on the number of subtractions. -/
def reduceSample : ℕ → UInt32 → UInt32
  | 0, w => w
  | fuel + 1, w => if w ≥ 12289 then reduceSample fuel (w - 12289) else w

/-- The body of the sampling loop: the coefficient from two bytes of output, if it is accepted.  A value below
`61445 = 5 * 12289` is reduced by at most four subtractions. -/
def sampleCoeff (buf : List UInt8) : Option UInt16 :=
  let w := ((rd buf 0).toUInt32 <<< 8) ||| (rd buf 1).toUInt32
  if w < 61445 then some (reduceSample 4 w).toUInt16 else none

/-- `hash_to_point_vartime`, for at most `fuel` draws. -/
def hashToPointVartime (f : Lanes → Lanes) (fuel : ℕ) (sc : Shake256) (logn : ℕ) : Option (List UInt16) :=
  Sampling.collect (fun sc => ((sc.extract f 2).2, (sc.extract f 2).1)) sampleCoeff fuel (1 <<< logn) sc

/-- `keccak_hash_to_point_vartime`, for at most `fuel` draws. -/
def keccakHashToPointVartime (K : Keccak256) (fuel : ℕ) (kc : KeccakPrng) (logn : ℕ) : Option (List UInt16) :=
  Sampling.collect (fun kc => ((kc.extract K 2).2.2, (kc.extract K 2).2.1)) sampleCoeff fuel (1 <<< logn) kc

/-! ### One draw -/

private theorem toNat_reduceSample {fuel : ℕ} {w : UInt32} (h : w.toNat < 12289 * (fuel + 1)) :
    (reduceSample fuel w).toNat = w.toNat % 12289 := by
  induction fuel generalizing w with
  | zero => rw [reduceSample, Nat.mod_eq_of_lt (by omega)]
  | succ fuel ih =>
    have hw := w.toNat_lt
    rw [reduceSample]
    by_cases hc : w ≥ 12289
    · have hle : 12289 ≤ w.toNat := UInt32.le_iff_toNat_le.1 hc
      have hsub : (w - 12289).toNat = w.toNat - 12289 := by
        rw [UInt32.toNat_sub, show (12289 : UInt32).toNat = 12289 from rfl]
        omega
      rw [if_pos hc, ih (by rw [hsub]; omega), hsub]
      omega
    · have hlt : w.toNat < 12289 := by
        by_contra hge
        exact hc (UInt32.le_iff_toNat_le.2 (by show 12289 ≤ w.toNat; omega))
      rw [if_neg hc, Nat.mod_eq_of_lt hlt]

theorem toNat_be16 (a b : UInt8) : ((a.toUInt32 <<< 8) ||| b.toUInt32).toNat = a.toNat * 256 + b.toNat := by
  have ha := a.toNat_lt
  have hb := b.toNat_lt
  have hs : (a.toUInt32 <<< 8).toNat = a.toNat <<< 8 := by
    rw [UInt32.toNat_shiftLeft, UInt8.toNat_toUInt32, show (8 : UInt32).toNat % 32 = 8 from rfl, Nat.shiftLeft_eq]
    exact Nat.mod_eq_of_lt (by omega)
  rw [UInt32.toNat_or, hs, UInt8.toNat_toUInt32, ← Nat.shiftLeft_add_eq_or_of_lt (by omega), Nat.shiftLeft_eq]

/-- A draw accepts and reduces the big-endian value of its two bytes. -/
theorem sampleCoeff_eq {buf : List UInt8} : sampleCoeff buf =
    (acceptSample ((rd buf 0).toNat * 256 + (rd buf 1).toNat)).map UInt16.ofNat := by
  have hw := toNat_be16 (rd buf 0) (rd buf 1)
  simp only [sampleCoeff, acceptSample, UInt32.lt_iff_toNat_lt, hw, show (61445 : UInt32).toNat = 61445 from rfl]
  by_cases h : (rd buf 0).toNat * 256 + (rd buf 1).toNat < 61445
  · rw [if_pos h, if_pos h, Option.map_some]
    congr 1
    apply UInt16.toNat_inj.1
    rw [UInt32.toNat_toUInt16, toNat_reduceSample (by rw [hw]; omega), hw, UInt16.toNat_ofNat']
  · rw [if_neg h, if_neg h]
    rfl

/-- A draw of two bytes of a stream. -/
theorem sampleCoeff_stream (stream : ℕ → UInt8) (d : ℕ) :
    sampleCoeff ((List.range' (2 * d) 2).map stream) = (draws stream d).map UInt16.ofNat := by
  rw [sampleCoeff_eq]
  rfl

/-! ### The loops -/

/-- `hash_to_point_vartime` returns the first accepted values of the output stream. -/
theorem hashToPointVartime_iff (f : Lanes → Lanes) (inputs : List (List UInt8)) (logn : ℕ) (xs : List UInt16) :
    (∃ fuel, hashToPointVartime f fuel (Shake256.seeded f inputs) logn = some xs) ↔
      Sampling.First (fun j => (draws (Shake256.keystream f inputs.flatten) j).map UInt16.ofNat) (2 ^ logn) xs := by
  rw [← one_mul (2 ^ logn), ← Nat.shiftLeft_eq]
  refine Sampling.collect_iff (I := fun d sc => Shake256.AtPos f inputs.flatten sc (2 * d)) ?_
    (Shake256.atPos_seeded f inputs) xs
  intro d sc h
  obtain ⟨h1, h2⟩ := Shake256.extract_spec h 2
  exact ⟨by rw [h2, sampleCoeff_stream], h1⟩

/-- `keccak_hash_to_point_vartime` returns the first accepted values of the output stream. -/
theorem keccakHashToPointVartime_iff (K : Keccak256) (inputs : List (List UInt8)) (logn : ℕ) (xs : List UInt16) :
    (∃ fuel, keccakHashToPointVartime K fuel (KeccakPrng.seeded K inputs) logn = some xs) ↔
      Sampling.First (fun j => (draws (KeccakPrng.keystream K (K (KeccakPrng.absorbed [] inputs))) j).map
        UInt16.ofNat) (2 ^ logn) xs := by
  rw [← one_mul (2 ^ logn), ← Nat.shiftLeft_eq]
  refine Sampling.collect_iff
    (I := fun d sc => KeccakPrng.AtPos K (K (KeccakPrng.absorbed [] inputs)) sc (2 * d)) ?_
    (KeccakPrng.atPos_seeded K inputs) xs
  intro d sc h
  obtain ⟨_, h1, h2⟩ := KeccakPrng.extract_spec h 2
  exact ⟨by rw [h2, sampleCoeff_stream], h1⟩

end Crypto

/-! ### The zero hash -/

theorem draws_zero {stream : ℕ → UInt8} (h : ∀ p, stream p = 0) (j : ℕ) : draws stream j = some 0 := by
  simp [draws, sampleAt, h, acceptSample]

/-- The hash function whose values are all zero. -/
def zeroHash : Crypto.Keccak256 := fun _ => ⟨List.replicate 32 0, List.length_replicate⟩

theorem keystream_zeroHash (S : ByteVec 32) (p : ℕ) : Crypto.KeccakPrng.keystream zeroHash S p = 0 := by
  have hp := Nat.mod_lt p (show 0 < 32 by omega)
  exact InPlace.rd_replicate hp 0

/-- Under the zero hash every challenge is zero. -/
theorem keccakHashToPointVartime_zeroHash (inputs : List (List UInt8)) :
    ∃ fuel, Crypto.keccakHashToPointVartime zeroHash fuel (Crypto.KeccakPrng.seeded zeroHash inputs) 9 =
      some (List.replicate 512 0) := by
  rw [Crypto.keccakHashToPointVartime_iff]
  refine Sampling.first_const (fun j => ?_) (2 ^ 9)
  rw [draws_zero (keystream_zeroHash _)]
  rfl

/-- The function on sponge states whose values are all zero. -/
def zeroPerm : Lanes → Lanes := fun _ _ => 0

theorem getByte_zero (v : ℕ) : getByte (fun _ => 0) v = 0 := by
  rw [getByte]
  split <;> rw [UInt64.zero_shiftRight] <;> rfl

theorem keystream_zeroPerm (bs : List UInt8) (p : ℕ) : Crypto.Shake256.keystream zeroPerm bs p = 0 := by
  rw [Crypto.Shake256.keystream, Sponge.stream, Function.iterate_succ_apply']
  exact getByte_zero _

end DfVrf
