import DfVrf.Crypto.Codec

/-!
# The encoder of signatures (`codec.c`)

`comp_encode` shifts the sign, the low bits and the unary rest of a coefficient into an accumulator and writes its
full bytes.

* `compEncode_spec`: the bytes consist of the encodings of the coefficients and zero padding.
* `compEncode_complete`: the encoder only fails on a coefficient out of range or a full buffer.
* `compDecode_compEncode`: the decoder returns the coefficients and reads all bytes.
-/

namespace DfVrf.Crypto

open InPlace

/-- The bits that have been written to the output and to the accumulator. -/
def writtenBits (st : UInt32 × ℕ × List UInt8) : List Bool := Bits.ofBytes st.2.2 ++ Bits.ofNat st.2.1 st.1.toNat

/-- The full bytes of the accumulator move to the output. -/
theorem compEncodeFlush_spec {maxOutLen fuel accLen accLen' : ℕ} {acc : UInt32} {out out' : List UInt8}
    (h : compEncodeFlush maxOutLen fuel acc accLen out = some (accLen', out')) (ha : accLen ≤ 32)
    (hf : accLen < 8 * fuel + 8) (ho : out.length ≤ maxOutLen) :
    writtenBits (acc, accLen', out') = writtenBits (acc, accLen, out) ∧ accLen' < 8 ∧ out'.length ≤ maxOutLen := by
  induction fuel generalizing accLen out with
  | zero =>
    cases h
    exact ⟨rfl, by omega, ho⟩
  | succ fuel ih =>
    rw [compEncodeFlush] at h
    split at h
    · rename_i h8
      simp only at h
      split at h
      · exact absurd h (by simp)
      · rename_i hroom
        obtain ⟨k, rfl⟩ : ∃ k, accLen = 8 + k := ⟨accLen - 8, by omega⟩
        rw [Nat.add_sub_cancel_left] at h
        obtain ⟨hbits, hlt, hlen⟩ := ih h (by omega) (by omega) (by simp; omega)
        refine ⟨?_, hlt, hlen⟩
        -- the byte that is written holds the eight bits above the remaining ones
        have hbyte : Bits.ofBytes [(acc >>> UInt32.ofNat k).toUInt8] = Bits.ofNat 8 (acc.toNat / 2 ^ k) := by
          rw [Bits.ofBytes_cons, Bits.ofBytes_nil, List.append_nil, UInt32.toNat_toUInt8,
            toNat_shiftRight_ofNat _ (by omega)]
          exact Bits.ofNat_congr (Nat.mod_mod _ _)
        rw [hbits, writtenBits, writtenBits]
        simp only
        rw [Bits.ofBytes_append, hbyte, List.append_assoc, Bits.ofNat_add]
    · cases h
      exact ⟨rfl, by omega, ho⟩

/-- There is room for the full bytes of the accumulator. -/
theorem compEncodeFlush_complete {maxOutLen accLen : ℕ} (fuel : ℕ) (acc : UInt32) {out : List UInt8}
    (h : 8 * out.length + accLen < 8 * maxOutLen + 8) :
    ∃ r, compEncodeFlush maxOutLen fuel acc accLen out = some r := by
  induction fuel generalizing accLen out with
  | zero => exact ⟨_, rfl⟩
  | succ fuel ih =>
    rw [compEncodeFlush]
    by_cases h8 : accLen ≥ 8
    · rw [if_pos h8]
      simp only
      rw [if_neg (by omega)]
      exact ih (by simp; omega)
    · rw [if_neg h8]
      exact ⟨_, rfl⟩

theorem length_encodeCoeff (x : Int16) : (encodeCoeff x).length = x.toInt.natAbs / 128 + 9 := by
  simp [encodeCoeff]
  omega

/-- The absolute value of a coefficient, as the code computes it. -/
private theorem toNat_abs (x : Int16) (hx : x.toInt.natAbs ≤ 2047) :
    (x.toInt32 < 0 ↔ x.toInt < 0) ∧
      (if x.toInt32 < 0 then -x.toInt32 else x.toInt32).toUInt32.toNat = x.toInt.natAbs := by
  have hneg : x.toInt32 < 0 ↔ x.toInt < 0 := by
    rw [Int32.lt_iff_toInt_lt, Int16.toInt_toInt32]
    rfl
  refine ⟨hneg, ?_⟩
  have h := toNat_toUInt32 (if x.toInt32 < 0 then -x.toInt32 else x.toInt32)
  by_cases hlt : x.toInt < 0
  · have hbmod : (-x.toInt).bmod (2 ^ 32) = -x.toInt := by apply Int.bmod_eq_of_le <;> omega
    rw [if_pos (hneg.2 hlt), Int32.toInt_neg, Int16.toInt_toInt32, hbmod] at h
    rw [if_pos (hneg.2 hlt)]
    omega
  · rw [if_neg (fun hc => hlt (hneg.1 hc)), Int16.toInt_toInt32] at h
    rw [if_neg (fun hc => hlt (hneg.1 hc))]
    omega

/-- The bits of the accumulator after the sign and the low bits have been shifted in. -/
private theorem bits_signLow {acc0 acc1 acc2 w : UInt32} {accLen : ℕ} {x : Int16} (ha : accLen < 8)
    (hw : w.toNat = x.toInt.natAbs) (hacc1 : acc0 <<< UInt32.ofNat 1 ||| (if x.toInt < 0 then 1 else 0) = acc1)
    (hacc2 : acc1 <<< UInt32.ofNat 7 ||| (w &&& 127) = acc2) : Bits.ofNat (accLen + 1 + 7) acc2.toNat =
      Bits.ofNat accLen acc0.toNat ++ [decide (x.toInt < 0)] ++ Bits.ofNat 7 x.toInt.natAbs := by
  have hb1 : Bits.ofNat (accLen + 1) acc1.toNat = Bits.ofNat accLen acc0.toNat ++ [decide (x.toInt < 0)] := by
    rw [← hacc1, ofNat_shift_or _ _ (by omega) (by omega) (by split <;> decide)]
    split
    · rename_i hlt
      rw [decide_eq_true hlt]
      rfl
    · rename_i hlt
      rw [decide_eq_false hlt]
      rfl
  have h127 : (w &&& 127).toNat = x.toInt.natAbs % 2 ^ 7 := by
    rw [UInt32.toNat_and, show (127 : UInt32).toNat = 2 ^ 7 - 1 from rfl, Nat.and_two_pow_sub_one_eq_mod, hw]
  rw [← hacc2, ofNat_shift_or _ _ (by omega) (by omega) (by rw [h127]; exact Nat.mod_lt _ (by omega)), hb1, h127]
  congr 1
  exact Bits.ofNat_congr (Nat.mod_mod _ _)

/-- The accumulator after the bits of a coefficient have been shifted in. -/
private theorem compEncodeCoeff_eq (maxOutLen : ℕ) (st : UInt32 × ℕ × List UInt8) {x : Int16}
    (hx : x.toInt.natAbs ≤ 2047) (ha : st.2.1 < 8) : ∃ acc,
      compEncodeCoeff maxOutLen st x = (compEncodeFlush maxOutLen (st.2.1 + (encodeCoeff x).length) acc
        (st.2.1 + (encodeCoeff x).length) st.2.2).map (fun r => (acc, r.1, r.2)) ∧
      writtenBits (acc, st.2.1 + (encodeCoeff x).length, st.2.2) = writtenBits st ++ encodeCoeff x := by
  obtain ⟨acc0, accLen, out⟩ := st
  simp only at ha
  obtain ⟨hneg, hw⟩ := toNat_abs x hx
  obtain ⟨w, hwdef⟩ : ∃ w, (if x.toInt32 < 0 then -x.toInt32 else x.toInt32).toUInt32 = w := ⟨_, rfl⟩
  rw [hwdef] at hw
  obtain ⟨k, hk⟩ : ∃ k, x.toInt.natAbs / 128 = k := ⟨_, rfl⟩
  have hw7 : (w >>> 7).toNat = k := by
    have h := toNat_shiftRight_ofNat w (show 7 < 32 by omega)
    rw [show UInt32.ofNat 7 = 7 from rfl, hw] at h
    rw [h]
    exact hk
  -- the sign, the low bits and the unary rest
  have hsign : (if x.toInt32 < 0 then acc0 <<< 1 ||| 1 else acc0 <<< 1) =
      acc0 <<< UInt32.ofNat 1 ||| (if x.toInt < 0 then 1 else 0) := by
    by_cases hlt : x.toInt < 0
    · rw [if_pos (hneg.2 hlt), if_pos hlt]
      rfl
    · rw [if_neg (fun hc => hlt (hneg.1 hc)), if_neg hlt, UInt32.or_zero]
      rfl
  have hrest : w >>> 7 + 1 = UInt32.ofNat (k + 1) := by
    apply UInt32.toNat_inj.1
    rw [UInt32.toNat_add, hw7, UInt32.toNat_ofNat']
    rfl
  obtain ⟨acc1, hacc1⟩ : ∃ acc1, acc0 <<< UInt32.ofNat 1 ||| (if x.toInt < 0 then 1 else 0) = acc1 := ⟨_, rfl⟩
  obtain ⟨acc2, hacc2⟩ : ∃ acc2, acc1 <<< UInt32.ofNat 7 ||| (w &&& 127) = acc2 := ⟨_, rfl⟩
  have hb2 := bits_signLow ha hw hacc1 hacc2
  have hb3 := ofNat_shift_or acc2 1 (show accLen + 1 + 7 + (k + 1) ≤ 32 by omega) (show k + 1 < 32 by omega)
    (Nat.one_lt_two_pow (by omega))
  have hone : Bits.ofNat (k + 1) 1 = List.replicate k false ++ [true] := by
    rw [Bits.ofNat_add, show 1 / 2 ^ 1 = 0 from rfl, Bits.ofNat_zero_right]
    rfl
  have hlen : (encodeCoeff x).length = 8 + (k + 1) := by
    rw [length_encodeCoeff, hk]
    omega
  refine ⟨acc2 <<< UInt32.ofNat (k + 1) ||| 1, ?_, ?_⟩
  · rw [compEncodeCoeff]
    simp only [hwdef, hsign, hacc1, hrest, hw7]
    rw [show acc1 <<< 7 ||| w &&& 127 = acc2 from hacc2, hlen, ← Nat.add_assoc accLen]
  · rw [writtenBits, writtenBits]
    simp only
    rw [hlen, show accLen + (8 + (k + 1)) = accLen + 1 + 7 + (k + 1) by omega, hb3, hb2,
      show (1 : UInt32).toNat = 1 from rfl, hone, encodeCoeff, hk]
    simp

/-! ### The loop over the coefficients -/

private theorem length_writtenBits (st : UInt32 × ℕ × List UInt8) :
    (writtenBits st).length = 8 * st.2.2.length + st.2.1 := by
  rw [writtenBits, List.length_append, Bits.length_ofBytes, Bits.length_ofNat]

theorem foldlM_compEncodeCoeff_spec {maxOutLen : ℕ} {xs : List Int16} {st st' : UInt32 × ℕ × List UInt8}
    (h : xs.foldlM (compEncodeCoeff maxOutLen) st = some st') (hx : ∀ x ∈ xs, x.toInt.natAbs ≤ 2047)
    (ha : st.2.1 < 8) (ho : st.2.2.length ≤ maxOutLen) :
    writtenBits st' = writtenBits st ++ xs.flatMap encodeCoeff ∧ st'.2.1 < 8 ∧ st'.2.2.length ≤ maxOutLen := by
  induction xs generalizing st with
  | nil =>
    obtain rfl : st = st' := by simpa using h
    exact ⟨by simp, ha, ho⟩
  | cons x xs ih =>
    have hx0 := hx x List.mem_cons_self
    obtain ⟨acc, heq, hbits⟩ := compEncodeCoeff_eq maxOutLen st hx0 ha
    have hlen := length_encodeCoeff x
    rw [List.foldlM_cons, heq, Option.bind_eq_bind, Option.bind_eq_some_iff] at h
    obtain ⟨st1, hst1, h⟩ := h
    obtain ⟨⟨accLen', out'⟩, hflush, rfl⟩ := Option.map_eq_some_iff.1 hst1
    obtain ⟨hb, hlt, hle⟩ := compEncodeFlush_spec hflush (by omega) (by omega) ho
    obtain ⟨hb', h'⟩ := ih h (fun y hy => hx y (List.mem_cons_of_mem x hy)) hlt hle
    refine ⟨?_, h'⟩
    rw [hb', hb, hbits, List.flatMap_cons, List.append_assoc]

private theorem foldlM_compEncodeCoeff_complete (maxOutLen : ℕ) {xs : List Int16} (st : UInt32 × ℕ × List UInt8)
    (hx : ∀ x ∈ xs, x.toInt.natAbs ≤ 2047) (ha : st.2.1 < 8) (ho : st.2.2.length ≤ maxOutLen)
    (hroom : (writtenBits st ++ xs.flatMap encodeCoeff).length ≤ 8 * maxOutLen) :
    ∃ st', xs.foldlM (compEncodeCoeff maxOutLen) st = some st' := by
  induction xs generalizing st with
  | nil => exact ⟨st, rfl⟩
  | cons x xs ih =>
    have hx0 := hx x List.mem_cons_self
    obtain ⟨acc, heq, hbits⟩ := compEncodeCoeff_eq maxOutLen st hx0 ha
    have hlen := length_encodeCoeff x
    rw [List.flatMap_cons, ← List.append_assoc] at hroom
    have hroom1 : 8 * st.2.2.length + (st.2.1 + (encodeCoeff x).length) < 8 * maxOutLen + 8 := by
      rw [List.length_append, List.length_append, length_writtenBits] at hroom
      omega
    obtain ⟨⟨accLen', out'⟩, hflush⟩ := compEncodeFlush_complete (st.2.1 + (encodeCoeff x).length) acc hroom1
    obtain ⟨hb, hlt, hle⟩ := compEncodeFlush_spec hflush (by omega) (by omega) ho
    rw [← hbits, ← hb] at hroom
    obtain ⟨st', hst'⟩ := ih (acc, accLen', out') (fun y hy => hx y (List.mem_cons_of_mem x hy)) hlt hle hroom
    refine ⟨st', ?_⟩
    rw [List.foldlM_cons, heq, hflush, Option.map_some, Option.bind_eq_bind, Option.bind_some]
    exact hst'

theorem out_of_range_iff (z : Int16) : (z < -2047 || z > 2047) = false ↔ z.toInt.natAbs ≤ 2047 := by
  rw [Bool.or_eq_false_iff, decide_eq_false_iff_not, decide_eq_false_iff_not, Int16.lt_iff_toInt_lt, gt_iff_lt,
    Int16.lt_iff_toInt_lt, show (-2047 : Int16).toInt = -2047 from rfl, show (2047 : Int16).toInt = 2047 from rfl]
  omega

theorem any_out_of_range_iff (xs : List Int16) :
    xs.any (fun z => z < -2047 || z > 2047) = false ↔ ∀ x ∈ xs, x.toInt.natAbs ≤ 2047 := by
  rw [List.any_eq_false]
  constructor
  · intro h x hx
    exact (out_of_range_iff x).1 (by simpa using h x hx)
  · intro h x hx
    have := (out_of_range_iff x).2 (h x hx)
    simpa using this

/-- The last byte: the unwritten bits and zeros. -/
theorem lastByte_bits {acc : UInt32} {accLen : ℕ} (h0 : 0 < accLen) (h8 : accLen < 8) :
    Bits.ofBytes [(acc <<< UInt32.ofNat (8 - accLen)).toUInt8] =
      Bits.ofNat accLen acc.toNat ++ List.replicate (8 - accLen) false := by
  have h := ofNat_shift_or acc 0 (show accLen + (8 - accLen) ≤ 32 by omega) (show 8 - accLen < 32 by omega)
    (Nat.two_pow_pos _)
  rw [UInt32.or_zero, show accLen + (8 - accLen) = 8 by omega, show (0 : UInt32).toNat = 0 from rfl,
    Bits.ofNat_zero_right] at h
  rw [← h, Bits.ofBytes_cons, Bits.ofBytes_nil, List.append_nil, UInt32.toNat_toUInt8]
  exact Bits.ofNat_congr (Nat.mod_mod _ _)

/-- What the encoder writes: the encodings of the coefficients and less than a byte of zeros. -/
theorem compEncode_spec {maxOutLen : ℕ} {xs : List Int16} {out : List UInt8}
    (h : compEncode maxOutLen xs = some out) : (∀ x ∈ xs, x.toInt.natAbs ≤ 2047) ∧ out.length ≤ maxOutLen ∧
      ∃ pad < 8, Bits.ofBytes out = xs.flatMap encodeCoeff ++ List.replicate pad false := by
  rw [compEncode] at h
  split at h
  · exact absurd h (by simp)
  · rename_i hrange
    have hx := (any_out_of_range_iff xs).1 (by simpa using hrange)
    split at h
    · exact absurd h (by simp)
    · rename_i acc accLen out0 hfold
      obtain ⟨hbits, hlt, hle⟩ := foldlM_compEncodeCoeff_spec hfold hx (by simp) (by simp)
      have hw : Bits.ofBytes out0 ++ Bits.ofNat accLen acc.toNat = xs.flatMap encodeCoeff := by
        simpa [writtenBits] using hbits
      split at h
      · rename_i hpos
        split at h
        · exact absurd h (by simp)
        · rename_i hroom
          obtain rfl := Option.some.inj h
          refine ⟨hx, by simp; omega, 8 - accLen, by omega, ?_⟩
          rw [Bits.ofBytes_append, lastByte_bits hpos hlt, ← hw, List.append_assoc]
      · obtain rfl := Option.some.inj h
        obtain rfl : accLen = 0 := by omega
        refine ⟨hx, hle, 0, by omega, ?_⟩
        rw [← hw]
        simp

/-- The encoder only fails on a coefficient out of range or a full buffer. -/
theorem compEncode_complete {maxOutLen : ℕ} {xs : List Int16} (hx : ∀ x ∈ xs, x.toInt.natAbs ≤ 2047)
    (hroom : (xs.flatMap encodeCoeff).length ≤ 8 * maxOutLen) : ∃ out, compEncode maxOutLen xs = some out := by
  obtain ⟨⟨acc, accLen, out0⟩, hfold⟩ := foldlM_compEncodeCoeff_complete maxOutLen (0, 0, []) hx
    (by simp) (by simp) (by simpa [writtenBits] using hroom)
  obtain ⟨hbits, hlt, hle⟩ := foldlM_compEncodeCoeff_spec hfold hx (by simp) (by simp)
  have hlen := congrArg List.length hbits
  rw [length_writtenBits, List.length_append] at hlen
  simp only [writtenBits, Bits.ofBytes_nil, Bits.ofNat_zero, List.append_nil, List.length_nil, Nat.zero_add] at hlen
  rw [compEncode, if_neg (by rw [(any_out_of_range_iff xs).2 hx]; simp), hfold]
  simp only
  by_cases hpos : accLen > 0
  · rw [if_pos hpos, if_neg (by omega)]
    exact ⟨_, rfl⟩
  · rw [if_neg hpos]
    exact ⟨_, rfl⟩

/-- The decoder inverts the encoder. -/
theorem compDecode_compEncode {maxOutLen logn : ℕ} {xs : List Int16} {out : List UInt8} (hl : xs.length = 2 ^ logn)
    (h : compEncode maxOutLen xs = some out) : compDecode logn out = some (xs, out.length) := by
  obtain ⟨hx, _, pad, hp, hbits⟩ := compEncode_spec h
  exact compDecode_complete hl hx hp hbits

end DfVrf.Crypto
