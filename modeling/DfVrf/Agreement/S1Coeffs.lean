import DfVrf.Agreement.Verify

/-!
# The first half of a signature (`deterministic.c`)

`falcon_det512_s1_coeffs` recomputes `s1 = c - s2 * h` with a copy of the arithmetic of `verify_raw`: it keeps `c`,
subtracts in the other order, and returns the centred coefficients.

* `s1Coeffs_iff_verifyRaw`: it succeeds exactly when `verify_raw` accepts, whatever 16-bit values `s2` holds.
-/

namespace DfVrf

open InPlace Negacyclic

namespace Crypto

/-- The loop with `mq_sub` in `falcon_det512_s1_coeffs`, which leaves `c` as it is. -/
def subFrom (c tt : List UInt16) : List UInt16 :=
  List.zipWith (fun x y => (mqSub x.toUInt32 y.toUInt32).toUInt16) c tt

/-- `falcon_det512_s1_coeffs`: the return code and the array `s1`. -/
def s1Coeffs (h c : List UInt16) (s2 : List Int16) : ℤ × List Int16 :=
  let logn := det512Logn
  let hNtt := toNttMonty h logn
  let tt := s2.map reduceS2
  let tt := mqNtt tt logn
  let tt := mqPolyMontymulNtt tt hNtt
  let tt := mqINtt tt logn
  let tt := subFrom c tt
  let s1 := tt.map normalizeS1
  if isShort s1 s2 logn ≠ true then (errBadSig, s1) else (0, s1)

private theorem s1Coeffs_eq_zero {h c : List UInt16} {s2 : List Int16} :
    (s1Coeffs h c s2).1 = 0 ↔ isShort (s1Coeffs h c s2).2 s2 9 = true := by
  unfold s1Coeffs
  simp only [show det512Logn = 9 from rfl]
  split
  · rename_i hshort
    simp only [hshort]
    decide
  · rename_i hshort
    simp only [not_not.1 hshort]

/-- Coefficients that pass the norm test, next to whatever array, are below `q` in absolute value. -/
private theorem repSigned_of_isShort {s1 s2 : List Int16} (hl : s2.length = 512) (h : isShort s1 s2 9 = true) :
    RepSigned 512 s2 (fun e => ofInt16 (rd s2 e)) := by
  rw [isShort_iff] at h
  refine ⟨hl, fun e he => ?_, fun e _ => rfl⟩
  have hterm := Finset.single_le_sum (f := fun u => sq (rd s1 u) + sq (rd s2 u))
    (fun u _ => Nat.zero_le _) (Finset.mem_range.2 he)
  have hsq : (rd s2 e).toInt.natAbs ^ 2 < 12289 ^ 2 := by
    have hle : sq (rd s2 e) ≤ 34034726 := by
      rw [show (2 : ℕ) ^ 9 = 512 from rfl] at h
      exact (Nat.le_add_left _ _).trans (hterm.trans h)
    exact lt_of_le_of_lt hle (by norm_num)
  have habs := lt_of_pow_lt_pow_left₀ 2 (by omega) hsq
  omega

private theorem repSigned_of_verifyRaw {c h : List UInt16} {s2 : List Int16} (hl : s2.length = 512)
    (hacc : verifyRaw c s2 h 9 = true) : RepSigned 512 s2 (fun e => ofInt16 (rd s2 e)) := by
  unfold verifyRaw at hacc
  exact repSigned_of_isShort hl hacc

/-- The array `s1` holds the centred coefficients of `c - s2 * h`. -/
private theorem rd_s1Coeffs {h c : List UInt16} {s2 : List Int16} {f g s : ℕ → Zq} (hh : Rep 512 h f) (hc : Rep 512 c g)
    (hs : RepSigned 512 s2 s) : (s1Coeffs h c s2).2.length = 512 ∧ ∀ e < 512,
      (rd (s1Coeffs h c s2).2 e).toInt = (g e - mulMod 512 s f e).valMinAbs := by
  have hprod := mqINtt_mul_rep (show 9 ≤ 10 by omega) (map_reduceS2_rep hs) (toNttMonty_rep (by omega) hh)
  have ht : Rep 512 (subFrom c _) (fun e => g e - mulMod 512 s f e) := mqPolySub_rep hc hprod
  have hs1 : (s1Coeffs h c s2).2 = (subFrom c (mqINtt (mqPolyMontymulNtt (mqNtt (s2.map reduceS2) 9)
      (toNttMonty h 9)) 9)).map normalizeS1 := by
    unfold s1Coeffs
    simp only [show det512Logn = 9 from rfl]
    split <;> rfl
  rw [hs1]
  refine ⟨by rw [List.length_map, ht.length], fun e he => ?_⟩
  rw [rd_map _ (by rw [ht.length]; exact he), normalizeS1_spec (ht.ok_rd e he), ht.val_rd e he]

/-- Hence the norm test adds the norm of `c - s2 * h`, as `verify_raw` does. -/
private theorem isShort_s1Coeffs {h c : List UInt16} {s2 : List Int16} {f g s : ℕ → Zq} (hh : Rep 512 h f)
    (hc : Rep 512 c g) (hs : RepSigned 512 s2 s) :
    isShort (s1Coeffs h c s2).2 s2 9 = true ↔ verifyRaw c s2 (toNttMonty h 9) 9 = true := by
  have hsum : ∀ u ∈ Finset.range (2 ^ 9), sq (rd (s1Coeffs h c s2).2 u) = normSq (g u - mulMod (2 ^ 9) s f u) := by
    intro u hu
    obtain ⟨-, hs1⟩ := rd_s1Coeffs hh hc hs
    have hpow : 2 ^ 9 = 512 := rfl
    rw [sq, normSq, hs1 u (Finset.mem_range.1 hu), hpow]
  rw [verifyRaw_iff (by omega) hc hs (toNttMonty_rep (by omega) hh), isShort_iff, Finset.sum_add_distrib,
    Finset.sum_congr rfl hsum]

end Crypto

open Crypto

/-- `falcon_det512_s1_coeffs` and `verify_raw` accept the same triples, and on success `s1` holds the centred
representatives of `c - s2 * h`, with a squared norm of `(s1, s2)` within the bound. -/
theorem s1Coeffs_iff_verifyRaw (h c : PublicPoly) (s2 : List.Vector Int16 512) :
    ((s1Coeffs h.coeffs c.coeffs s2.1).1 = 0 ↔
      verifyRaw c.coeffs s2.1 (toNttMonty h.coeffs 9) 9 = true) ∧
    ((s1Coeffs h.coeffs c.coeffs s2.1).1 = 0 →
      (s1Coeffs h.coeffs c.coeffs s2.1).2.length = 512 ∧
      (∀ e < 512, (rd (s1Coeffs h.coeffs c.coeffs s2.1).2 e).toInt = (coeffPoly c.coeffs e -
          mulMod 512 (fun e => ofInt16 (rd s2.1 e)) (coeffPoly h.coeffs) e).valMinAbs ∧
        -6144 ≤ (rd (s1Coeffs h.coeffs c.coeffs s2.1).2 e).toInt ∧
        (rd (s1Coeffs h.coeffs c.coeffs s2.1).2 e).toInt ≤ 6144) ∧
      ∑ u ∈ Finset.range 512, (rd (s1Coeffs h.coeffs c.coeffs s2.1).2 u).toInt ^ 2 +
        ∑ u ∈ Finset.range 512, (rd s2.1 u).toInt ^ 2 ≤ 34034726) := by
  obtain ⟨s2, hl⟩ := s2
  simp only [s1Coeffs_eq_zero]
  refine ⟨⟨fun hshort => ?_, fun hacc => ?_⟩, fun hshort => ?_⟩
  · exact (isShort_s1Coeffs h.rep c.rep (repSigned_of_isShort hl hshort)).1 hshort
  · exact (isShort_s1Coeffs h.rep c.rep (repSigned_of_verifyRaw hl hacc)).2 hacc
  · obtain ⟨hlen, hs1⟩ := rd_s1Coeffs h.rep c.rep (repSigned_of_isShort hl hshort)
    refine ⟨hlen, fun e he => ⟨hs1 e he, ?_⟩, ?_⟩
    · have hrange := ZMod.natAbs_valMinAbs_le (coeffPoly c.coeffs e -
        mulMod 512 (fun e => ofInt16 (rd s2 e)) (coeffPoly h.coeffs) e)
      rw [hs1 e he]
      omega
    · rw [isShort_iff, Finset.sum_add_distrib] at hshort
      rw [← sum_sq_eq, ← sum_sq_eq, ← Nat.cast_add]
      exact_mod_cast hshort

end DfVrf
