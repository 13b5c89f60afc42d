import DfVrf.Crypto.FixedCodec

/-!
# Encodings of keys (`codec.c`)

The polynomials of a key are encoded with a fixed number of bits for each coefficient: 14 bits in a public key, five
to eight bits in two's complement in a private key.  The decoders read bytes into an accumulator and take
coefficients from its low end.

* `modqDecode_modqEncode`, `modqEncode_modqDecode`: the encoder and the decoder of public keys are inverse.
* `trimI8Decode_complete`: the decoder of private keys reads what the coefficients are encoded to.
* `trimI8Decode_trimI8Encode`, `trimI8Encode_trimI8Decode`, `trimI8Decode_iff`: the encoder and the decoder of private
  keys are inverse.
-/

namespace DfVrf.Crypto

open InPlace

/-- The loop of `modq_decode` over the bytes of the input. -/
def modqDecodeLoop (n : ℕ) : List UInt8 → UInt32 → ℕ → List UInt16 → Option (UInt32 × ℕ × List UInt16)
  | [], acc, accLen, x => if x.length < n then none else some (acc, accLen, x)
  | b :: bs, acc, accLen, x =>
    if x.length < n then
      let acc := (acc <<< 8) ||| b.toUInt32
      let accLen := accLen + 8
      if accLen ≥ 14 then
        let accLen := accLen - 14
        let w := (acc >>> UInt32.ofNat accLen) &&& 0x3FFF
        if w ≥ 12289 then none else modqDecodeLoop n bs acc accLen (x ++ [w.toUInt16])
      else modqDecodeLoop n bs acc accLen x
    else some (acc, accLen, x)

/-- `modq_decode`: the coefficients and the number of bytes read; `none` where the code returns zero. -/
def modqDecode (logn : ℕ) (buf : List UInt8) : Option (List UInt16 × ℕ) :=
  let n := 1 <<< logn
  let inLen := ((n * 14) + 7) >>> 3
  if inLen > buf.length then none
  else
    match modqDecodeLoop n (buf.take inLen) 0 0 [] with
    | none => none
    | some (acc, accLen, x) =>
      if acc &&& ((1 <<< UInt32.ofNat accLen) - 1) ≠ 0 then none else some (x, inLen)

/-- One iteration of `modq_encode` on the accumulator, the number of its bits and the bytes written. -/
def modqEncodeStep (st : UInt32 × ℕ × List UInt8) (x : UInt16) : UInt32 × ℕ × List UInt8 :=
  let acc := (st.1 <<< 14) ||| x.toUInt32
  let accLen := st.2.1 + 14
  let r := fixedFlush accLen acc accLen st.2.2
  (acc, r.1, r.2)

/-- `modq_encode`, with an output buffer of `maxOutLen` bytes; `none` where the code returns zero. -/
def modqEncode (maxOutLen : ℕ) (x : List UInt16) (logn : ℕ) : Option (List UInt8) :=
  let n := 1 <<< logn
  if x.any (fun w => w ≥ 12289) then none
  else
    let outLen := ((n * 14) + 7) >>> 3
    if outLen > maxOutLen then none
    else
      let st := x.foldl modqEncodeStep (0, 0, [])
      some (if st.2.1 > 0 then st.2.2 ++ [(st.1 <<< UInt32.ofNat (8 - st.2.1)).toUInt8] else st.2.2)

def maxFgBits : List ℕ := [0, 8, 8, 8, 8, 8, 7, 7, 6, 6, 5]

def maxFGBits : List ℕ := [0, 8, 8, 8, 8, 8, 8, 8, 8, 8, 8]

/-- The inner loop of `trim_i8_decode`, which takes the coefficients that are complete in the accumulator; the
first argument bounds their number. -/
def trimI8Take (n bits : ℕ) : ℕ → UInt32 → ℕ → List Int8 → Option (ℕ × List Int8)
  | 0, _, accLen, x => some (accLen, x)
  | fuel + 1, acc, accLen, x =>
    if accLen ≥ bits ∧ x.length < n then
      let mask1 : UInt32 := (1 <<< UInt32.ofNat bits) - 1
      let mask2 : UInt32 := 1 <<< UInt32.ofNat (bits - 1)
      let accLen := accLen - bits
      let w := (acc >>> UInt32.ofNat accLen) &&& mask1
      let w := w ||| -(w &&& mask2)
      if w = -mask2 then none else trimI8Take n bits fuel acc accLen (x ++ [w.toInt32.toInt8])
    else some (accLen, x)

/-- The loop of `trim_i8_decode` over the bytes of the input. -/
def trimI8DecodeLoop (n bits : ℕ) : List UInt8 → UInt32 → ℕ → List Int8 → Option (UInt32 × ℕ × List Int8)
  | [], acc, accLen, x => if x.length < n then none else some (acc, accLen, x)
  | b :: bs, acc, accLen, x =>
    if x.length < n then
      let acc := (acc <<< 8) ||| b.toUInt32
      let accLen := accLen + 8
      match trimI8Take n bits accLen acc accLen x with
      | none => none
      | some (accLen, x) => trimI8DecodeLoop n bits bs acc accLen x
    else some (acc, accLen, x)

/-- `trim_i8_decode`: the coefficients and the number of bytes read; `none` where the code returns zero. -/
def trimI8Decode (logn bits : ℕ) (buf : List UInt8) : Option (List Int8 × ℕ) :=
  let n := 1 <<< logn
  let inLen := ((n * bits) + 7) >>> 3
  if inLen > buf.length then none
  else
    match trimI8DecodeLoop n bits (buf.take inLen) 0 0 [] with
    | none => none
    | some (acc, accLen, x) =>
      if acc &&& ((1 <<< UInt32.ofNat accLen) - 1) ≠ 0 then none else some (x, inLen)

/-! ### The decoder of public keys -/

/-- The test of a coefficient. -/
def modqCoeff (w : UInt32) : Option UInt16 := if w ≥ 12289 then none else some w.toUInt16

/-- A byte completes at most one coefficient. -/
theorem modqDecodeLoop_eq (n : ℕ) (bs : List UInt8) (acc : UInt32) {accLen : ℕ} (ha : accLen < 14) (x : List UInt16) :
    modqDecodeLoop n bs acc accLen x = fixedDecodeLoop n 14 modqCoeff bs acc accLen x := by
  have hmask : (1 : UInt32) <<< UInt32.ofNat 14 - 1 = 0x3FFF := rfl
  induction bs generalizing acc accLen x with
  | nil => rfl
  | cons b bs ih =>
    rw [modqDecodeLoop, fixedDecodeLoop]
    by_cases hmore : x.length < n
    · have hfuel : ∀ acc, fixedTake n 14 modqCoeff (accLen + 8) acc = fixedTake n 14 modqCoeff (accLen + 7 + 1) acc :=
        fun acc => rfl
      rw [if_pos hmore, if_pos hmore]
      simp only [hfuel]
      rw [fixedTake]
      by_cases h14 : accLen + 8 ≥ 14
      · rw [if_pos h14, if_pos (show accLen + 8 ≥ 14 ∧ x.length < n from ⟨h14, hmore⟩)]
        simp only [hmask, modqCoeff]
        split
        · rfl
        · simp only
          rw [fixedTake_of_lt _ _ _ (by omega), ih _ (by omega)]
      · rw [if_neg h14, if_neg fun h => h14 h.1, ih _ (by omega)]
    · rw [if_neg hmore, if_neg hmore]

/-- The decoder of public keys is the decoder with 14 bits. -/
private theorem modqDecode_eq (logn : ℕ) (buf : List UInt8) :
    modqDecode logn buf = fixedDecode logn 14 modqCoeff buf := by
  rw [modqDecode, fixedDecode]
  simp only [modqDecodeLoop_eq _ _ _ (show 0 < 14 by omega)]
  cases fixedDecodeLoop (1 <<< logn) 14 modqCoeff (buf.take (((1 <<< logn) * 14 + 7) >>> 3)) 0 0 [] <;> rfl

/-- The 14 bits of a coefficient of a public key. -/
def encodeModq (y : UInt16) : List Bool := Bits.ofNat 14 y.toNat

/-- A byte string of the right length that consists of the encodings of the coefficients and zero padding is decoded
to them. -/
theorem modqDecode_complete {logn pad : ℕ} {buf : List UInt8} {h : List UInt16} (hl : h.length = 2 ^ logn)
    (hh : ∀ y ∈ h, y.toNat < 12289) (hp : pad < 8)
    (hw : Bits.ofBytes buf = h.flatMap encodeModq ++ List.replicate pad false) :
    modqDecode logn buf = some (h, buf.length) := by
  have hdec : ∀ y ∈ h, Decodes 14 (fun z : UInt16 => z.toUInt32) modqCoeff y := by
    intro y hy w hw
    have hlt := hh y hy
    rw [UInt16.toNat_toUInt32, Nat.mod_eq_of_lt (by omega)] at hw
    have hq : ¬ w ≥ 12289 := by
      intro hc
      have hc : 12289 ≤ w.toNat := UInt32.le_iff_toNat_le.1 hc
      omega
    have hval : w.toUInt16 = y := by
      apply UInt16.toNat_inj.1
      rw [UInt32.toNat_toUInt16, hw]
      exact Nat.mod_eq_of_lt y.toNat_lt
    rw [modqCoeff, if_neg hq, hval]
  have hdecode : fixedDecode logn 14 modqCoeff (buf ++ []) = some (h, buf.length) :=
    fixedDecode_complete (by omega) (by omega) hl hdec hp hw
  rwa [List.append_nil, ← modqDecode_eq] at hdecode

/-- A decoded public key has `2 ^ logn` coefficients below `q`. -/
theorem modqDecode_spec {logn v : ℕ} {buf : List UInt8} {h : List UInt16} (hd : modqDecode logn buf = some (h, v)) :
    h.length = 2 ^ logn ∧ ∀ w ∈ h, w.toNat < 12289 := by
  rw [modqDecode_eq] at hd
  obtain ⟨hl, hmem⟩ := fixedDecode_mem hd
  refine ⟨hl, ?_⟩
  intro y hy
  obtain ⟨w, hw⟩ := hmem y hy
  rw [modqCoeff] at hw
  split at hw
  · exact absurd hw (by simp)
  · rename_i hq
    obtain rfl := Option.some.inj hw
    rw [ge_iff_le, UInt32.le_iff_toNat_le, not_le] at hq
    rw [UInt32.toNat_toUInt16]
    exact lt_of_le_of_lt (Nat.mod_le _ _) hq

/-- The 14 bits that a coefficient is made of are the coefficient. -/
theorem recovers_modq : Recovers 14 (fun z : UInt16 => z.toUInt32) modqCoeff := by
  intro w y hy
  unfold modqCoeff at hy
  split at hy
  · exact absurd hy (by simp)
  · rename_i hq
    obtain rfl := Option.some.inj hy
    rw [ge_iff_le, UInt32.le_iff_toNat_le, not_le] at hq
    have hlt : w.toNat < 12289 := hq
    rw [UInt16.toNat_toUInt32, UInt32.toNat_toUInt16, Nat.mod_eq_of_lt (show w.toNat < 2 ^ 16 by omega)]

private theorem codeBits_modq : codeBits 14 (fun z : UInt16 => z.toUInt32) = encodeModq := by
  funext y
  rw [codeBits, UInt16.toNat_toUInt32, encodeModq]

/-- A decoded public key consists of the encodings of the coefficients and zero padding. -/
theorem modqDecode_sound {logn v : ℕ} {buf : List UInt8} {h : List UInt16} (hd : modqDecode logn buf = some (h, v)) :
    v = (2 ^ logn * 14 + 7) / 8 ∧
      ∃ pad < 8, Bits.ofBytes (buf.take v) = h.flatMap encodeModq ++ List.replicate pad false := by
  rw [modqDecode_eq] at hd
  have hsound := fixedDecode_sound (by omega) (by omega) recovers_modq hd
  rwa [codeBits_modq] at hsound

/-! ### The encoder of public keys -/

/-- A coefficient below `q` need not be masked. -/
private theorem modqEncodeStep_eq (st : UInt32 × ℕ × List UInt8) {x : UInt16} (hx : x.toNat < 12289) :
    modqEncodeStep st x = fixedEncodeStep 14 (fun z : UInt16 => z.toUInt32) st x := by
  have hmask : x.toUInt32 &&& ((1 <<< UInt32.ofNat 14) - 1) = x.toUInt32 := by
    apply UInt32.toNat_inj.1
    rw [toNat_and_mask _ (by omega), UInt16.toNat_toUInt32]
    exact Nat.mod_eq_of_lt (by omega)
  rw [modqEncodeStep, fixedEncodeStep]
  simp only [hmask]
  rfl

/-- The encoder only fails on a coefficient that is not reduced or a small buffer. -/
private theorem modqEncode_eq {maxOutLen logn : ℕ} {h : List UInt16} (hh : ∀ y ∈ h, y.toNat < 12289)
    (hroom : (2 ^ logn * 14 + 7) / 8 ≤ maxOutLen) :
    modqEncode maxOutLen h logn = some (fixedEncode 14 (fun z : UInt16 => z.toUInt32) h) := by
  have hany : ¬ h.any (fun w => w ≥ 12289) = true := by
    rw [Bool.not_eq_true, List.any_eq_false]
    intro y hy
    have := hh y hy
    rw [decide_eq_true_iff, ge_iff_le, UInt16.le_iff_toNat_le, not_le]
    exact this
  have hlen : ¬ ((1 <<< logn) * 14 + 7) >>> 3 > maxOutLen := by
    rw [Nat.shiftRight_eq_div_pow, Nat.shiftLeft_eq, one_mul]
    omega
  have hfold : ∀ st, h.foldl modqEncodeStep st = h.foldl (fixedEncodeStep 14 fun z : UInt16 => z.toUInt32) st := by
    clear hany
    induction h with
    | nil => exact fun st => rfl
    | cons y ys ih =>
      intro st
      rw [List.foldl_cons, List.foldl_cons, modqEncodeStep_eq st (hh y List.mem_cons_self),
        ih fun z hz => hh z (List.mem_cons_of_mem y hz)]
  rw [modqEncode]
  simp only
  rw [if_neg hany, if_neg hlen, hfold]
  rfl

/-- The decoder inverts the encoder. -/
theorem modqDecode_modqEncode {maxOutLen logn : ℕ} {h : List UInt16} (hl : h.length = 2 ^ logn)
    (hh : ∀ y ∈ h, y.toNat < 12289) (hroom : (2 ^ logn * 14 + 7) / 8 ≤ maxOutLen) :
    ∃ body, modqEncode maxOutLen h logn = some body ∧ body.length = (2 ^ logn * 14 + 7) / 8 ∧
      modqDecode logn body = some (h, body.length) := by
  obtain ⟨pad, hp, hbits⟩ := fixedEncode_spec (fun z : UInt16 => z.toUInt32) (show 14 ≤ 16 by omega) h
  rw [codeBits_modq] at hbits
  refine ⟨_, modqEncode_eq hh hroom, ?_, modqDecode_complete hl hh hp hbits⟩
  rw [length_fixedEncode _ (by omega), hl]

/-- The encoder inverts the decoder. -/
theorem modqEncode_modqDecode {maxOutLen logn v : ℕ} {buf : List UInt8} {h : List UInt16}
    (hd : modqDecode logn buf = some (h, v)) (hroom : (2 ^ logn * 14 + 7) / 8 ≤ maxOutLen) :
    modqEncode maxOutLen h logn = some (buf.take v) := by
  obtain ⟨-, pad, hp, hbits⟩ := modqDecode_sound hd
  obtain ⟨pad', hp', hbits'⟩ := fixedEncode_spec (fun z : UInt16 => z.toUInt32) (show 14 ≤ 16 by omega) h
  rw [codeBits_modq] at hbits'
  rw [modqEncode_eq (modqDecode_spec hd).2 hroom, Bits.eq_of_padding hp' hp hbits' hbits]

/-! ### The decoder of private keys -/

/-- The low bits of a coefficient of a private key. -/
def encodeTrim (bits : ℕ) (x : Int8) : List Bool := Bits.ofNat bits x.toUInt8.toNat

/-- The coefficients that `bits` bits can hold; the smallest value is not used. -/
def TrimRange (bits : ℕ) (x : Int8) : Prop := -(2 ^ (bits - 1)) < x.toInt ∧ x.toInt < 2 ^ (bits - 1)

/-- The sign extension of the low bits of a coefficient. -/
private theorem signExtend_trim {bits : ℕ} (h0 : 0 < bits) (h8 : bits ≤ 8) {x : Int8} (hx : TrimRange bits x)
    {w : UInt32} (hw : w.toNat = x.toUInt8.toNat % 2 ^ bits) :
    w ||| -(w &&& 1 <<< UInt32.ofNat (bits - 1)) ≠ -(1 <<< UInt32.ofNat (bits - 1)) ∧
      (w ||| -(w &&& 1 <<< UInt32.ofNat (bits - 1))).toInt32.toInt8 = x := by
  have hall : ∀ k < 8, ∀ v < 256, -(2 ^ k : ℤ) < (UInt8.ofNat v).toInt8.toInt → (UInt8.ofNat v).toInt8.toInt < 2 ^ k →
      UInt32.ofNat (v % 2 ^ (k + 1)) ||| -(UInt32.ofNat (v % 2 ^ (k + 1)) &&& 1 <<< UInt32.ofNat k) ≠
        -(1 <<< UInt32.ofNat k) ∧
      (UInt32.ofNat (v % 2 ^ (k + 1)) ||| -(UInt32.ofNat (v % 2 ^ (k + 1)) &&& 1 <<< UInt32.ofNat k)).toInt32.toInt8 =
        (UInt8.ofNat v).toInt8 := by
    decide +kernel
  have hx8 : (UInt8.ofNat x.toUInt8.toNat).toInt8 = x := by
    rw [UInt8.ofNat_toNat]
    rfl
  have hw' : w = UInt32.ofNat (x.toUInt8.toNat % 2 ^ bits) := by
    rw [← hw, UInt32.ofNat_toNat]
  have h := hall (bits - 1) (by omega) x.toUInt8.toNat x.toUInt8.toNat_lt
  rw [hx8, Nat.sub_add_cancel h0] at h
  rw [hw']
  exact h hx.1 hx.2

/-- The sign extension of the bits of a coefficient; the smallest value is forbidden. -/
def trimI8Coeff (bits : ℕ) (w : UInt32) : Option Int8 :=
  let mask2 : UInt32 := 1 <<< UInt32.ofNat (bits - 1)
  let w := w ||| -(w &&& mask2)
  if w = -mask2 then none else some w.toInt32.toInt8

private theorem trimI8Take_eq (n bits fuel : ℕ) (acc : UInt32) (accLen : ℕ) (x : List Int8) :
    trimI8Take n bits fuel acc accLen x = fixedTake n bits (trimI8Coeff bits) fuel acc accLen x := by
  induction fuel generalizing accLen x with
  | zero => rfl
  | succ fuel ih =>
    rw [trimI8Take, fixedTake]
    simp only [trimI8Coeff]
    split
    · split
      · rfl
      · exact ih _ _
    · rfl

private theorem trimI8DecodeLoop_eq (n bits : ℕ) (bs : List UInt8) (acc : UInt32) (accLen : ℕ) (x : List Int8) :
    trimI8DecodeLoop n bits bs acc accLen x = fixedDecodeLoop n bits (trimI8Coeff bits) bs acc accLen x := by
  induction bs generalizing acc accLen x with
  | nil => rfl
  | cons b bs ih =>
    rw [trimI8DecodeLoop, fixedDecodeLoop]
    simp only [trimI8Take_eq, ih]
    cases fixedTake n bits (trimI8Coeff bits) (accLen + 8) ((acc <<< 8) ||| b.toUInt32) (accLen + 8) x <;> rfl

/-- The decoder of private keys is the decoder with a fixed number of bits. -/
private theorem trimI8Decode_eq (logn bits : ℕ) (buf : List UInt8) :
    trimI8Decode logn bits buf = fixedDecode logn bits (trimI8Coeff bits) buf := by
  rw [trimI8Decode, fixedDecode]
  simp only [trimI8DecodeLoop_eq]
  cases fixedDecodeLoop (1 <<< logn) bits (trimI8Coeff bits) (buf.take (((1 <<< logn) * bits + 7) >>> 3)) 0 0 [] <;>
    rfl

/-- Coefficients in the range of the encoding, followed by zero padding, are decoded. -/
theorem trimI8Decode_complete {logn bits pad : ℕ} {buf rest : List UInt8} {xs : List Int8} (h0 : 0 < bits)
    (h8 : bits ≤ 8) (hl : xs.length = 2 ^ logn) (hx : ∀ x ∈ xs, TrimRange bits x) (hp : pad < 8)
    (hw : Bits.ofBytes buf = xs.flatMap (encodeTrim bits) ++ List.replicate pad false) :
    trimI8Decode logn bits (buf ++ rest) = some (xs, buf.length) := by
  have hxs : ∀ x ∈ xs, Decodes bits (fun z : Int8 => z.toUInt8.toUInt32) (trimI8Coeff bits) x := by
    intro x hx' w hw
    rw [UInt8.toNat_toUInt32] at hw
    obtain ⟨hne, hval⟩ := signExtend_trim h0 h8 (hx x hx') hw
    rw [trimI8Coeff, if_neg hne, hval]
  rw [trimI8Decode_eq]
  exact fixedDecode_complete h0 (by omega) hl hxs hp hw

theorem flatMap_encodeTrim_zero (bits k : ℕ) :
    (List.replicate k 0).flatMap (encodeTrim bits) = List.replicate (bits * k) false := by
  have hzero : encodeTrim bits 0 = List.replicate bits false := Bits.ofNat_zero_right bits
  induction k with
  | zero => rfl
  | succ k ih =>
    rw [List.replicate_succ, List.flatMap_cons, ih, hzero, ← List.replicate_add, Nat.mul_succ, Nat.add_comm]

/-! ### The encoder of private keys -/

/-- `trim_i8_encode`, with an output buffer of `maxOutLen` bytes; `none` where the code returns zero. -/
def trimI8Encode (maxOutLen : ℕ) (x : List Int8) (logn bits : ℕ) : Option (List UInt8) :=
  let n := 1 <<< logn
  let maxv : ℤ := ((1 <<< (bits - 1) : ℕ) : ℤ) - 1
  let minv := -maxv
  if x.any (fun z => z.toInt < minv || z.toInt > maxv) then none
  else
    let outLen := ((n * bits) + 7) >>> 3
    if outLen > maxOutLen then none else some (fixedEncode bits (fun z : Int8 => z.toUInt8.toUInt32) x)

/-- The encoder only fails on a coefficient out of range or a small buffer. -/
private theorem trimI8Encode_eq {maxOutLen logn bits : ℕ} {xs : List Int8} (hx : ∀ x ∈ xs, TrimRange bits x)
    (hroom : (2 ^ logn * bits + 7) / 8 ≤ maxOutLen) :
    trimI8Encode maxOutLen xs logn bits = some (fixedEncode bits (fun z : Int8 => z.toUInt8.toUInt32) xs) := by
  have hmax : ((1 <<< (bits - 1) : ℕ) : ℤ) = 2 ^ (bits - 1) := by
    rw [Nat.shiftLeft_eq, one_mul]
    push_cast
    rfl
  have hany : ¬ xs.any (fun z => z.toInt < -(((1 <<< (bits - 1) : ℕ) : ℤ) - 1) ||
      z.toInt > ((1 <<< (bits - 1) : ℕ) : ℤ) - 1) = true := by
    rw [Bool.not_eq_true, List.any_eq_false, hmax]
    intro y hy
    have hr := hx y hy
    unfold TrimRange at hr
    rw [Bool.or_eq_true, decide_eq_true_iff, decide_eq_true_iff]
    omega
  have hlen : ¬ ((1 <<< logn) * bits + 7) >>> 3 > maxOutLen := by
    rw [Nat.shiftRight_eq_div_pow, Nat.shiftLeft_eq, one_mul]
    omega
  rw [trimI8Encode]
  simp only
  rw [if_neg hany, if_neg hlen]

theorem range_of_trimI8Encode {maxOutLen logn bits : ℕ} {xs : List Int8} {body : List UInt8}
    (h : trimI8Encode maxOutLen xs logn bits = some body) : ∀ x ∈ xs, TrimRange bits x := by
  have hmax : ((1 <<< (bits - 1) : ℕ) : ℤ) = 2 ^ (bits - 1) := by
    rw [Nat.shiftLeft_eq, one_mul]
    push_cast
    rfl
  unfold trimI8Encode at h
  simp only [hmax] at h
  split at h
  · exact absurd h (by simp)
  · rename_i hany
    rw [Bool.not_eq_true, List.any_eq_false] at hany
    intro x hx
    have hr := hany x hx
    rw [Bool.or_eq_true, decide_eq_true_iff, decide_eq_true_iff] at hr
    unfold TrimRange
    omega

/-- The decoder inverts the encoder. -/
theorem trimI8Decode_trimI8Encode {maxOutLen logn bits : ℕ} {xs : List Int8} (h0 : 0 < bits) (h8 : bits ≤ 8)
    (hl : xs.length = 2 ^ logn) (hx : ∀ x ∈ xs, TrimRange bits x) (hroom : (2 ^ logn * bits + 7) / 8 ≤ maxOutLen) :
    ∃ body, trimI8Encode maxOutLen xs logn bits = some body ∧ body.length = (2 ^ logn * bits + 7) / 8 ∧
      ∀ rest, trimI8Decode logn bits (body ++ rest) = some (xs, body.length) := by
  obtain ⟨pad, hp, hbits⟩ := fixedEncode_spec (fun z : Int8 => z.toUInt8.toUInt32) (show bits ≤ 16 by omega) xs
  refine ⟨_, trimI8Encode_eq hx hroom, ?_, fun rest => trimI8Decode_complete h0 h8 hl hx hp hbits⟩
  rw [length_fixedEncode _ (by omega), hl]

/-- The bits of which a coefficient is made, and its range. -/
private theorem trimI8Coeff_check : ∀ k < 8, ∀ v < 2 ^ (k + 1), ∀ y, trimI8Coeff (k + 1) (UInt32.ofNat v) = some y →
    y.toUInt8.toUInt32.toNat % 2 ^ (k + 1) = v ∧ -(2 ^ k : ℤ) < y.toInt ∧ y.toInt < 2 ^ k := by
  have hall : ∀ k < 8, ∀ v < 2 ^ (k + 1), (trimI8Coeff (k + 1) (UInt32.ofNat v)).all fun y =>
      y.toUInt8.toUInt32.toNat % 2 ^ (k + 1) = v ∧ -(2 ^ k : ℤ) < y.toInt ∧ y.toInt < 2 ^ k := by decide +kernel
  intro k hk v hv y hy
  have h := hall k hk v hv
  rw [hy] at h
  exact of_decide_eq_true h

theorem trimI8Coeff_spec {bits : ℕ} (h0 : 0 < bits) (h8 : bits ≤ 8) {w : UInt32} (hw : w.toNat < 2 ^ bits) {y : Int8}
    (h : trimI8Coeff bits w = some y) : y.toUInt8.toUInt32.toNat % 2 ^ bits = w.toNat ∧ TrimRange bits y := by
  obtain ⟨k, rfl⟩ : ∃ k, bits = k + 1 := ⟨bits - 1, by omega⟩
  exact trimI8Coeff_check k (by omega) w.toNat hw y (by rwa [UInt32.ofNat_toNat])

/-- A decoded vector is in the range of the encoding, and the encoder inverts the decoder. -/
theorem trimI8Encode_trimI8Decode {maxOutLen logn bits v : ℕ} {buf : List UInt8} {xs : List Int8} (h0 : 0 < bits)
    (h8 : bits ≤ 8) (h : trimI8Decode logn bits buf = some (xs, v)) (hroom : (2 ^ logn * bits + 7) / 8 ≤ maxOutLen) :
    xs.length = 2 ^ logn ∧ (∀ x ∈ xs, TrimRange bits x) ∧ v = (2 ^ logn * bits + 7) / 8 ∧
      trimI8Encode maxOutLen xs logn bits = some (buf.take v) := by
  -- only words of `bits` bits are read
  obtain ⟨coeff, hcoeff⟩ : ∃ coeff : UInt32 → Option Int8,
      coeff = fun w => if w.toNat < 2 ^ bits then trimI8Coeff bits w else none := ⟨_, rfl⟩
  have hcoeff' : ∀ {w y}, coeff w = some y → w.toNat < 2 ^ bits ∧ trimI8Coeff bits w = some y := by
    intro w y hy
    rw [hcoeff] at hy
    simp only at hy
    split at hy
    · rename_i hlt
      exact ⟨hlt, hy⟩
    · exact absurd hy (by simp)
  have hcongr : fixedDecode logn bits (trimI8Coeff bits) buf = fixedDecode logn bits coeff buf := by
    refine fixedDecode_congr (by omega) (fun w hw => ?_) buf
    rw [hcoeff]
    exact (if_pos hw).symm
  rw [trimI8Decode_eq, hcongr] at h
  have hrec : Recovers bits (fun z : Int8 => z.toUInt8.toUInt32) coeff := by
    intro w y hy
    obtain ⟨hlt, hc⟩ := hcoeff' hy
    rw [(trimI8Coeff_spec h0 h8 hlt hc).1, Nat.mod_eq_of_lt hlt]
  obtain ⟨hl, hmem⟩ := fixedDecode_mem h
  obtain ⟨hv, pad, hp, hbits⟩ := fixedDecode_sound h0 (by omega) hrec h
  have hrange : ∀ x ∈ xs, TrimRange bits x := by
    intro x hx
    obtain ⟨w, hw⟩ := hmem x hx
    obtain ⟨hlt, hc⟩ := hcoeff' hw
    exact (trimI8Coeff_spec h0 h8 hlt hc).2
  refine ⟨hl, hrange, hv, ?_⟩
  obtain ⟨pad', hp', hbits'⟩ := fixedEncode_spec (fun z : Int8 => z.toUInt8.toUInt32) (show bits ≤ 16 by omega) xs
  rw [trimI8Encode_eq hrange hroom, Bits.eq_of_padding hp' hp hbits' hbits]

/-- The decoder accepts exactly the encodings of vectors in the range. -/
theorem trimI8Decode_iff {maxOutLen logn bits v : ℕ} {buf : List UInt8} {xs : List Int8} (h0 : 0 < bits) (h8 : bits ≤ 8)
    (hroom : (2 ^ logn * bits + 7) / 8 ≤ maxOutLen) : trimI8Decode logn bits buf = some (xs, v) ↔
      xs.length = 2 ^ logn ∧ v = (2 ^ logn * bits + 7) / 8 ∧
        trimI8Encode maxOutLen xs logn bits = some (buf.take v) := by
  constructor
  · intro h
    obtain ⟨hl, -, hv, henc⟩ := trimI8Encode_trimI8Decode h0 h8 h hroom
    exact ⟨hl, hv, henc⟩
  · rintro ⟨hl, hv, henc⟩
    obtain ⟨body, hbody, hlen, hdec⟩ := trimI8Decode_trimI8Encode h0 h8 hl (range_of_trimI8Encode henc) hroom
    obtain rfl : body = buf.take v := Option.some.inj (hbody.symm.trans henc)
    have h := hdec (buf.drop v)
    rwa [List.take_append_drop, hlen, ← hv] at h

/-- Two coefficients with 5 bits, followed by another byte. -/
theorem trimI8Decode_iff_five : trimI8Decode 1 5 [0x0D, 0xC0, 7] = some ([1, -9], 2) :=
  (trimI8Decode_iff (by decide) (by decide) (show (2 ^ 1 * 5 + 7) / 8 ≤ 2 by decide)).2 ⟨rfl, rfl, by decide⟩

end DfVrf.Crypto
