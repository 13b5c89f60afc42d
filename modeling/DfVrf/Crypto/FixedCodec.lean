import DfVrf.Crypto.Encoder

/-!
# Encodings with a fixed number of bits (`codec.c`)

The encoders and decoders `trim_i16_encode`, `trim_i16_decode` and `trim_i8_decode` differ in the type of the
coefficients and in the conversion of a coefficient to and from its bits.  The loops are stated once, with the
conversion as a parameter: what a coefficient is encoded to, it is decoded from (`fixedDecode_complete`), and nothing
else is accepted (`fixedDecode_sound`).

* `trimI16Decode_fixedEncode`: the decoder of signatures in the CT format returns the coefficients.
-/

namespace DfVrf.Crypto

open InPlace

variable {β : Type*}

/-! ### The loops -/

/-- `while (acc_len >= 8)`: the full bytes of the accumulator are written; the first argument bounds their number. -/
def fixedFlush : ℕ → UInt32 → ℕ → List UInt8 → ℕ × List UInt8
  | 0, _, accLen, out => (accLen, out)
  | fuel + 1, acc, accLen, out =>
    if accLen ≥ 8 then
      let accLen := accLen - 8
      fixedFlush fuel acc accLen (out ++ [(acc >>> UInt32.ofNat accLen).toUInt8])
    else (accLen, out)

/-- One iteration of an encoder on the accumulator, the number of its bits and the bytes written; `code` is the
coefficient before masking. -/
def fixedEncodeStep (bits : ℕ) (code : β → UInt32) (st : UInt32 × ℕ × List UInt8) (x : β) :
    UInt32 × ℕ × List UInt8 :=
  let mask : UInt32 := (1 <<< UInt32.ofNat bits) - 1
  let acc := (st.1 <<< UInt32.ofNat bits) ||| (code x &&& mask)
  let accLen := st.2.1 + bits
  let r := fixedFlush accLen acc accLen st.2.2
  (acc, r.1, r.2)

/-- The loop of an encoder over the coefficients, and the last byte. -/
def fixedEncode (bits : ℕ) (code : β → UInt32) (xs : List β) : List UInt8 :=
  let st := xs.foldl (fixedEncodeStep bits code) (0, 0, [])
  if st.2.1 > 0 then st.2.2 ++ [(st.1 <<< UInt32.ofNat (8 - st.2.1)).toUInt8] else st.2.2

/-- The inner loop of a decoder, which takes the coefficients that are complete in the accumulator; the first argument
bounds their number, and `coeff` makes a coefficient of its bits, if they are admissible. -/
def fixedTake (n bits : ℕ) (coeff : UInt32 → Option β) : ℕ → UInt32 → ℕ → List β → Option (ℕ × List β)
  | 0, _, accLen, x => some (accLen, x)
  | fuel + 1, acc, accLen, x =>
    if accLen ≥ bits ∧ x.length < n then
      let mask1 : UInt32 := (1 <<< UInt32.ofNat bits) - 1
      let accLen := accLen - bits
      match coeff ((acc >>> UInt32.ofNat accLen) &&& mask1) with
      | none => none
      | some y => fixedTake n bits coeff fuel acc accLen (x ++ [y])
    else some (accLen, x)

/-- The loop of a decoder over the bytes of the input. -/
def fixedDecodeLoop (n bits : ℕ) (coeff : UInt32 → Option β) :
    List UInt8 → UInt32 → ℕ → List β → Option (UInt32 × ℕ × List β)
  | [], acc, accLen, x => if x.length < n then none else some (acc, accLen, x)
  | b :: bs, acc, accLen, x =>
    if x.length < n then
      let acc := (acc <<< 8) ||| b.toUInt32
      let accLen := accLen + 8
      match fixedTake n bits coeff accLen acc accLen x with
      | none => none
      | some (accLen, x) => fixedDecodeLoop n bits coeff bs acc accLen x
    else some (acc, accLen, x)

/-- A decoder: the coefficients and the number of bytes read; `none` where the code returns zero. -/
def fixedDecode (logn bits : ℕ) (coeff : UInt32 → Option β) (buf : List UInt8) : Option (List β × ℕ) :=
  let n := 1 <<< logn
  let inLen := ((n * bits) + 7) >>> 3
  if inLen > buf.length then none
  else
    match fixedDecodeLoop n bits coeff (buf.take inLen) 0 0 [] with
    | none => none
    | some (acc, accLen, x) =>
      if acc &&& ((1 <<< UInt32.ofNat accLen) - 1) ≠ 0 then none else some (x, inLen)

/-! ### Coefficients of signatures -/

/-- `trim_i16_encode`, with an output buffer of `maxOutLen` bytes; `none` where the code returns zero. -/
def trimI16Encode (maxOutLen : ℕ) (x : List Int16) (logn bits : ℕ) : Option (List UInt8) :=
  let n := 1 <<< logn
  let maxv : ℤ := ((1 <<< (bits - 1) : ℕ) : ℤ) - 1
  let minv := -maxv
  if x.any (fun z => z.toInt < minv || z.toInt > maxv) then none
  else
    let outLen := ((n * bits) + 7) >>> 3
    if outLen > maxOutLen then none else some (fixedEncode bits (fun z => z.toUInt16.toUInt32) x)

/-- The sign extension of the bits of a coefficient; the smallest value is forbidden. -/
def trimI16Coeff (bits : ℕ) (w : UInt32) : Option Int16 :=
  let mask2 : UInt32 := 1 <<< UInt32.ofNat (bits - 1)
  let w := w ||| -(w &&& mask2)
  if w = -mask2 then none
  else
    let w := w ||| -(w &&& mask2)
    some w.toInt32.toInt16

/-- `trim_i16_decode`. -/
def trimI16Decode (logn bits : ℕ) (buf : List UInt8) : Option (List Int16 × ℕ) :=
  fixedDecode logn bits (trimI16Coeff bits) buf

/-! ### The encoder -/

/-- The bits of a coefficient. -/
def codeBits (bits : ℕ) (code : β → UInt32) (x : β) : List Bool := Bits.ofNat bits (code x).toNat

private theorem length_flatMap_codeBits (bits : ℕ) (code : β → UInt32) (xs : List β) :
    (xs.flatMap (codeBits bits code)).length = xs.length * bits := by
  simp [codeBits, List.length_flatMap]

/-- A buffer with enough room makes no difference. -/
private theorem fixedFlush_eq {maxOutLen fuel accLen : ℕ} {acc : UInt32} {out : List UInt8} {r : ℕ × List UInt8}
    (h : compEncodeFlush maxOutLen fuel acc accLen out = some r) : fixedFlush fuel acc accLen out = r := by
  induction fuel generalizing accLen out with
  | zero =>
    rw [compEncodeFlush] at h
    exact Option.some.inj h
  | succ fuel ih =>
    rw [compEncodeFlush] at h
    rw [fixedFlush]
    split at h
    · rename_i h8
      simp only at h
      rw [if_pos h8]
      split at h
      · exact absurd h (by simp)
      · exact ih h
    · rename_i h8
      rw [if_neg h8]
      exact Option.some.inj h

theorem fixedFlush_spec {accLen : ℕ} (acc : UInt32) (out : List UInt8) (ha : accLen ≤ 32) :
    writtenBits (acc, fixedFlush accLen acc accLen out) = writtenBits (acc, accLen, out) ∧
      (fixedFlush accLen acc accLen out).1 < 8 := by
  have hroom : 8 * out.length + accLen < 8 * (out.length + accLen) + 8 := by omega
  obtain ⟨⟨accLen', out'⟩, hr⟩ := compEncodeFlush_complete accLen acc hroom
  rw [fixedFlush_eq hr]
  obtain ⟨h1, h2, _⟩ := compEncodeFlush_spec hr ha (by omega) (by omega)
  exact ⟨h1, h2⟩

/-- The encoder writes the bits of a coefficient. -/
theorem fixedEncodeStep_spec {bits : ℕ} (code : β → UInt32) (hb : bits ≤ 16) {st : UInt32 × ℕ × List UInt8}
    (ha : st.2.1 < 8) (x : β) :
    writtenBits (fixedEncodeStep bits code st x) = writtenBits st ++ codeBits bits code x ∧
      (fixedEncodeStep bits code st x).2.1 < 8 := by
  obtain ⟨acc, accLen, out⟩ := st
  simp only at ha
  have hmask : (code x &&& ((1 <<< UInt32.ofNat bits) - 1)).toNat = (code x).toNat % 2 ^ bits :=
    toNat_and_mask _ (by omega)
  have hlt : (code x &&& ((1 <<< UInt32.ofNat bits) - 1)).toNat < 2 ^ bits := by
    rw [hmask]
    exact Nat.mod_lt _ (Nat.two_pow_pos bits)
  have hshift := ofNat_shift_or acc _ (show accLen + bits ≤ 32 by omega) (show bits < 32 by omega) hlt
  obtain ⟨h1, h2⟩ := fixedFlush_spec (acc <<< UInt32.ofNat bits ||| code x &&& ((1 <<< UInt32.ofNat bits) - 1)) out
    (show accLen + bits ≤ 32 by omega)
  refine ⟨?_, h2⟩
  rw [fixedEncodeStep]
  simp only
  rw [h1, writtenBits, writtenBits]
  simp only
  rw [hshift, hmask, codeBits, Bits.ofNat_congr (Nat.mod_mod _ _), List.append_assoc]

private theorem foldl_fixedEncodeStep {bits : ℕ} (code : β → UInt32) (hb : bits ≤ 16) (xs : List β)
    {st : UInt32 × ℕ × List UInt8} (ha : st.2.1 < 8) :
    writtenBits (xs.foldl (fixedEncodeStep bits code) st) = writtenBits st ++ xs.flatMap (codeBits bits code) ∧
      (xs.foldl (fixedEncodeStep bits code) st).2.1 < 8 := by
  induction xs generalizing st with
  | nil => exact ⟨by simp, ha⟩
  | cons x xs ih =>
    obtain ⟨h1, h2⟩ := fixedEncodeStep_spec code hb ha x
    obtain ⟨h3, h4⟩ := ih h2
    refine ⟨?_, h4⟩
    rw [List.foldl_cons, h3, h1, List.flatMap_cons, List.append_assoc]

/-- The encoder writes the bits of the coefficients and less than a byte of zeros. -/
theorem fixedEncode_spec {bits : ℕ} (code : β → UInt32) (hb : bits ≤ 16) (xs : List β) : ∃ pad < 8,
    Bits.ofBytes (fixedEncode bits code xs) = xs.flatMap (codeBits bits code) ++ List.replicate pad false := by
  obtain ⟨h1, h2⟩ := foldl_fixedEncodeStep code hb xs (show (0, 0, []).2.1 < 8 by simp)
  rw [fixedEncode]
  generalize xs.foldl (fixedEncodeStep bits code) (0, 0, []) = st at h1 h2 ⊢
  obtain ⟨acc, accLen, out⟩ := st
  simp only [writtenBits, Bits.ofBytes_nil, Bits.ofNat_zero, List.append_nil, List.nil_append] at h1 h2
  simp only
  by_cases hpos : accLen > 0
  · rw [if_pos hpos]
    refine ⟨8 - accLen, by omega, ?_⟩
    rw [Bits.ofBytes_append, lastByte_bits hpos h2, ← h1, List.append_assoc]
  · obtain rfl : accLen = 0 := by omega
    rw [if_neg hpos]
    refine ⟨0, by omega, ?_⟩
    simpa using h1

/-! ### The decoder -/

/-- The bits of a coefficient, followed by other bits, at the low end of the accumulator. -/
private theorem code_coeff {bits k : ℕ} {code : β → UInt32} {acc : UInt32} {y : β} {u w : List Bool} (hb : bits ≤ 16)
    (hk : k < 32) (hw : Bits.ofNat (bits + k) acc.toNat ++ u = codeBits bits code y ++ w) :
    (acc >>> UInt32.ofNat k &&& ((1 <<< UInt32.ofNat bits) - 1)).toNat = (code y).toNat % 2 ^ bits ∧
      Bits.ofNat k acc.toNat ++ u = w := by
  rw [Bits.ofNat_add, List.append_assoc] at hw
  obtain ⟨h1, h2⟩ := List.append_inj hw (by simp [codeBits])
  refine ⟨?_, h2⟩
  rw [toNat_and_mask _ (by omega), toNat_shiftRight_ofNat _ hk, Bits.ofNat_injective h1]

/-- The coefficient `y` is made of its bits. -/
def Decodes (bits : ℕ) (code : β → UInt32) (coeff : UInt32 → Option β) (y : β) : Prop :=
  ∀ w : UInt32, w.toNat = (code y).toNat % 2 ^ bits → coeff w = some y

/-- The coefficients that are complete in the accumulator are taken from it. -/
private theorem fixedTake_complete {n bits pad fuel accLen : ℕ} {code : β → UInt32} {coeff : UInt32 → Option β}
    {acc : UInt32} {x ys : List β} {u : List Bool} (h0 : 0 < bits) (hb : bits ≤ 16) (ha : accLen < 32)
    (hf : accLen ≤ fuel) (hl : x.length + ys.length = n) (hy : ∀ y ∈ ys, Decodes bits code coeff y)
    (hw : Bits.ofNat accLen acc.toNat ++ u = ys.flatMap (codeBits bits code) ++ List.replicate pad false) :
    ∃ accLen' x' ys', fixedTake n bits coeff fuel acc accLen x = some (accLen', x') ∧ x' ++ ys' = x ++ ys ∧
      (∀ y ∈ ys', Decodes bits code coeff y) ∧ (accLen' < bits ∨ ys' = []) ∧
      Bits.ofNat accLen' acc.toNat ++ u = ys'.flatMap (codeBits bits code) ++ List.replicate pad false := by
  induction fuel generalizing accLen x ys with
  | zero => exact ⟨accLen, x, ys, rfl, rfl, hy, .inl (by omega), hw⟩
  | succ fuel ih =>
    rw [fixedTake]
    by_cases hmore : accLen ≥ bits ∧ x.length < n
    · cases ys with
      | nil =>
        rw [List.length_nil] at hl
        omega
      | cons y ys =>
        obtain ⟨k, rfl⟩ : ∃ k, accLen = bits + k := ⟨accLen - bits, by omega⟩
        rw [List.flatMap_cons, List.append_assoc] at hw
        obtain ⟨hval, hw⟩ := code_coeff hb (by omega) hw
        have hcoeff := hy y List.mem_cons_self _ hval
        rw [if_pos hmore]
        simp only [Nat.add_sub_cancel_left]
        rw [hcoeff]
        rw [List.length_cons] at hl
        obtain ⟨accLen', x', ys', h1, h2, h3⟩ := ih (by omega) (by omega) (x := x ++ [y]) (by simp; omega)
          (fun z hz => hy z (List.mem_cons_of_mem y hz)) hw
        exact ⟨accLen', x', ys', h1, by rw [h2, List.append_assoc, List.singleton_append], h3⟩
    · rw [if_neg hmore]
      refine ⟨accLen, x, ys, rfl, rfl, hy, ?_, hw⟩
      by_cases hlt : accLen < bits
      · exact .inl hlt
      · exact .inr (List.length_eq_zero_iff.1 (by omega))

private theorem fixedDecodeLoop_complete {n bits pad accLen : ℕ} {code : β → UInt32} {coeff : UInt32 → Option β}
    {bs : List UInt8} {acc : UInt32} {x ys : List β} (h0 : 0 < bits) (hb : bits ≤ 16)
    (ha : accLen < bits ∨ ys = []) (hp : pad < 8) (hl : x.length + ys.length = n)
    (hy : ∀ y ∈ ys, Decodes bits code coeff y)
    (hw : Bits.ofNat accLen acc.toNat ++ Bits.ofBytes bs =
      ys.flatMap (codeBits bits code) ++ List.replicate pad false) :
    ∃ acc' accLen', fixedDecodeLoop n bits coeff bs acc accLen x = some (acc', accLen', x ++ ys) ∧ accLen' ≤ 7 ∧
      acc'.toNat % 2 ^ accLen' = 0 := by
  induction bs generalizing acc accLen x ys with
  | nil =>
    have hlen := congrArg List.length hw
    rw [Bits.ofBytes_nil, List.append_nil, List.length_append, Bits.length_ofNat, length_flatMap_codeBits,
      List.length_replicate] at hlen
    obtain rfl : ys = [] := by
      rcases ha with ha | ha
      · cases ys with
        | nil => rfl
        | cons y ys =>
          rw [List.length_cons, Nat.succ_mul] at hlen
          omega
      · exact ha
    obtain rfl : accLen = pad := by simpa using hlen
    have hzero : Bits.ofNat accLen acc.toNat = List.replicate accLen false := by simpa using hw
    have hmod := Bits.ofNat_injective (hzero.trans (Bits.ofNat_zero_right _).symm)
    rw [Nat.zero_mod] at hmod
    refine ⟨acc, accLen, ?_, by omega, hmod⟩
    rw [fixedDecodeLoop, if_neg (by simpa using hl.ge), List.append_nil]
  | cons b bs ih =>
    have hlen := congrArg List.length hw
    rw [List.length_append, List.length_append, Bits.length_ofNat, Bits.length_ofBytes, length_flatMap_codeBits,
      List.length_replicate, List.length_cons] at hlen
    cases ys with
    | nil =>
      rw [List.length_nil] at hlen
      omega
    | cons y ys =>
      have hacc : accLen < bits := by
        rcases ha with ha | ha
        · exact ha
        · exact absurd ha (by simp)
      rw [Bits.ofBytes_cons, ← List.append_assoc, ← ofNat_load acc b (by omega)] at hw
      -- several coefficients may be complete, and what is left is shorter than one
      obtain ⟨accLen', x', ys', htake, hcat, hy', ha', hw'⟩ :=
        fixedTake_complete h0 hb (show accLen + 8 < 32 by omega) (le_refl _) hl hy hw
      have hl' : x'.length + ys'.length = n := by
        rw [← List.length_append, hcat, List.length_append, hl]
      obtain ⟨acc', accLen'', h1, h2⟩ := ih ha' hl' hy' hw'
      refine ⟨acc', accLen'', ?_, h2⟩
      rw [List.length_cons] at hl
      rw [fixedDecodeLoop, if_pos (by omega)]
      simp only [htake]
      rw [h1, hcat]

/-- The bits of coefficients, followed by zero padding, are decoded. -/
theorem fixedDecode_complete {logn bits pad : ℕ} {code : β → UInt32} {coeff : UInt32 → Option β}
    {buf rest : List UInt8} {xs : List β} (h0 : 0 < bits) (hb : bits ≤ 16) (hl : xs.length = 2 ^ logn)
    (hx : ∀ x ∈ xs, Decodes bits code coeff x) (hp : pad < 8)
    (hw : Bits.ofBytes buf = xs.flatMap (codeBits bits code) ++ List.replicate pad false) :
    fixedDecode logn bits coeff (buf ++ rest) = some (xs, buf.length) := by
  have hlen := congrArg List.length hw
  rw [Bits.length_ofBytes, List.length_append, length_flatMap_codeBits, hl, List.length_replicate] at hlen
  have hin : (((1 <<< logn) * bits + 7) >>> 3 : ℕ) = buf.length := by
    rw [Nat.shiftRight_eq_div_pow, Nat.shiftLeft_eq, one_mul]
    omega
  have h0' : Bits.ofNat 0 (0 : UInt32).toNat ++ Bits.ofBytes buf =
      xs.flatMap (codeBits bits code) ++ List.replicate pad false := hw
  obtain ⟨acc, accLen, hloop, ha, hzero⟩ :=
    fixedDecodeLoop_complete (x := []) h0 hb (.inl h0) hp (Nat.zero_add _) hx h0'
  rw [hl] at hloop
  have hle : ¬ buf.length > (buf ++ rest).length := by
    rw [List.length_append]
    omega
  simp only [fixedDecode, hin, if_neg hle, List.take_left]
  rw [Nat.shiftLeft_eq, one_mul, hloop]
  simp only
  rw [if_neg (not_not.2 ((padding_eq_zero acc ha).2 hzero)), List.nil_append]

theorem fixedTake_of_lt {n bits fuel accLen : ℕ} (coeff : UInt32 → Option β) (acc : UInt32) (x : List β)
    (h : accLen < bits) : fixedTake n bits coeff fuel acc accLen x = some (accLen, x) := by
  cases fuel with
  | zero => rfl
  | succ fuel => rw [fixedTake, if_neg (by omega)]

/-- A decoder reads words of `bits` bits only. -/
theorem fixedDecode_congr {logn bits : ℕ} {coeff coeff' : UInt32 → Option β} (hb : bits < 32)
    (h : ∀ w : UInt32, w.toNat < 2 ^ bits → coeff w = coeff' w) (buf : List UInt8) :
    fixedDecode logn bits coeff buf = fixedDecode logn bits coeff' buf := by
  have htake : ∀ fuel acc accLen x, fixedTake (1 <<< logn) bits coeff fuel acc accLen x =
      fixedTake (1 <<< logn) bits coeff' fuel acc accLen x := by
    intro fuel
    induction fuel with
    | zero => exact fun _ _ _ => rfl
    | succ fuel ih =>
      intro acc accLen x
      have hmask : (acc >>> UInt32.ofNat (accLen - bits) &&& ((1 <<< UInt32.ofNat bits) - 1)).toNat < 2 ^ bits := by
        rw [toNat_and_mask _ hb]
        exact Nat.mod_lt _ (Nat.two_pow_pos bits)
      rw [fixedTake, fixedTake]
      simp only [h _ hmask, ih]
  have hloop : ∀ bs acc accLen x, fixedDecodeLoop (1 <<< logn) bits coeff bs acc accLen x =
      fixedDecodeLoop (1 <<< logn) bits coeff' bs acc accLen x := by
    intro bs
    induction bs with
    | nil => exact fun _ _ _ => rfl
    | cons b bs ih =>
      intro acc accLen x
      rw [fixedDecodeLoop, fixedDecodeLoop]
      simp only [htake, ih]
  rw [fixedDecode, fixedDecode]
  simp only [hloop]

/-! ### What is decoded -/

private theorem fixedTake_mem {n bits fuel accLen accLen' : ℕ} {coeff : UInt32 → Option β} {acc : UInt32}
    {x x' : List β} (h : fixedTake n bits coeff fuel acc accLen x = some (accLen', x')) (hl : x.length ≤ n)
    (hx : ∀ y ∈ x, ∃ w, coeff w = some y) : x'.length ≤ n ∧ ∀ y ∈ x', ∃ w, coeff w = some y := by
  induction fuel generalizing accLen x with
  | zero =>
    cases h
    exact ⟨hl, hx⟩
  | succ fuel ih =>
    rw [fixedTake] at h
    split at h
    · rename_i hmore
      simp only at h
      split at h
      · exact absurd h (by simp)
      · rename_i y hy
        refine ih h (by simp; omega) ?_
        intro z hz
        rcases List.mem_append.1 hz with hz | hz
        · exact hx z hz
        · obtain rfl := List.mem_singleton.1 hz
          exact ⟨_, hy⟩
    · cases h
      exact ⟨hl, hx⟩

private theorem fixedDecodeLoop_mem {n bits accLen accLen' : ℕ} {coeff : UInt32 → Option β} {bs : List UInt8}
    {acc acc' : UInt32} {x x' : List β} (h : fixedDecodeLoop n bits coeff bs acc accLen x = some (acc', accLen', x'))
    (hl : x.length ≤ n) (hx : ∀ y ∈ x, ∃ w, coeff w = some y) :
    x'.length = n ∧ ∀ y ∈ x', ∃ w, coeff w = some y := by
  induction bs generalizing acc accLen x with
  | nil =>
    rw [fixedDecodeLoop] at h
    split at h
    · exact absurd h (by simp)
    · cases h
      exact ⟨by omega, hx⟩
  | cons b bs ih =>
    rw [fixedDecodeLoop] at h
    split at h
    · simp only at h
      split at h
      · exact absurd h (by simp)
      · rename_i htake
        obtain ⟨hl', hx'⟩ := fixedTake_mem htake hl hx
        exact ih h hl' hx'
    · cases h
      exact ⟨by omega, hx⟩

/-- A decoder returns `2 ^ logn` coefficients, each of them made of some bits. -/
theorem fixedDecode_mem {logn bits v : ℕ} {coeff : UInt32 → Option β} {buf : List UInt8} {x : List β}
    (h : fixedDecode logn bits coeff buf = some (x, v)) : x.length = 2 ^ logn ∧ ∀ y ∈ x, ∃ w, coeff w = some y := by
  rw [fixedDecode] at h
  split at h
  · exact absurd h (by simp)
  · split at h
    · exact absurd h (by simp)
    · rename_i hloop
      split at h
      · exact absurd h (by simp)
      · cases h
        have hmem := fixedDecodeLoop_mem hloop (Nat.zero_le _) (by simp)
        rwa [Nat.shiftLeft_eq, one_mul] at hmem

/-- The bits that a coefficient is made of are those it is encoded to. -/
def Recovers (bits : ℕ) (code : β → UInt32) (coeff : UInt32 → Option β) : Prop :=
  ∀ (w : UInt32) (y : β), coeff w = some y → (code y).toNat % 2 ^ bits = w.toNat % 2 ^ bits

/-- The coefficients that are taken were in the accumulator. -/
private theorem fixedTake_sound {n bits fuel accLen accLen' : ℕ} {code : β → UInt32} {coeff : UInt32 → Option β}
    {acc : UInt32} {x x' : List β} (hb : bits ≤ 16) (hr : Recovers bits code coeff) (ha : accLen < 32)
    (hf : accLen ≤ fuel) (h0 : 0 < bits) (h : fixedTake n bits coeff fuel acc accLen x = some (accLen', x')) :
    (accLen' < bits ∨ n ≤ x'.length) ∧ ∃ ys, x' = x ++ ys ∧
      Bits.ofNat accLen acc.toNat = ys.flatMap (codeBits bits code) ++ Bits.ofNat accLen' acc.toNat := by
  induction fuel generalizing accLen x with
  | zero =>
    cases h
    exact ⟨.inl (by omega), [], by simp, by simp⟩
  | succ fuel ih =>
    rw [fixedTake] at h
    split at h
    · rename_i hmore
      obtain ⟨k, rfl⟩ : ∃ k, accLen = bits + k := ⟨accLen - bits, by omega⟩
      simp only [Nat.add_sub_cancel_left] at h
      split at h
      · exact absurd h (by simp)
      · rename_i y hy
        obtain ⟨hlen, ys, hx', hbits⟩ := ih (by omega) (by omega) h
        have hcode := hr _ y hy
        rw [toNat_and_mask _ (by omega), toNat_shiftRight_ofNat _ (by omega), Nat.mod_mod] at hcode
        refine ⟨hlen, y :: ys, by rw [hx', List.append_assoc, List.singleton_append], ?_⟩
        rw [Bits.ofNat_add, hbits, List.flatMap_cons, List.append_assoc, codeBits, Bits.ofNat_congr hcode]
    · cases h
      exact ⟨by omega, [], by simp, by simp⟩

private theorem fixedDecodeLoop_sound {n bits accLen accLen' : ℕ} {code : β → UInt32} {coeff : UInt32 → Option β}
    {bs : List UInt8} {acc acc' : UInt32} {x x' : List β} (h0 : 0 < bits) (hb : bits ≤ 16)
    (hr : Recovers bits code coeff) (ha : accLen < bits ∨ n ≤ x.length)
    (h : fixedDecodeLoop n bits coeff bs acc accLen x = some (acc', accLen', x')) :
    ∃ ys rest, x' = x ++ ys ∧ Bits.ofNat accLen acc.toNat ++ Bits.ofBytes bs =
      ys.flatMap (codeBits bits code) ++ (Bits.ofNat accLen' acc'.toNat ++ Bits.ofBytes rest) := by
  induction bs generalizing acc accLen x with
  | nil =>
    rw [fixedDecodeLoop] at h
    split at h
    · exact absurd h (by simp)
    · cases h
      exact ⟨[], [], by simp, by simp⟩
  | cons b bs ih =>
    rw [fixedDecodeLoop] at h
    split at h
    · rename_i hmore
      have hacc : accLen < bits := by omega
      simp only at h
      split at h
      · exact absurd h (by simp)
      · rename_i accLen1 x1 htake
        obtain ⟨hlen, ys, rfl, hbits⟩ := fixedTake_sound hb hr (show accLen + 8 < 32 by omega) (le_refl _) h0 htake
        obtain ⟨zs, rest, rfl, hrest⟩ := ih hlen h
        refine ⟨ys ++ zs, rest, List.append_assoc _ _ _, ?_⟩
        rw [Bits.ofBytes_cons, ← List.append_assoc, ← ofNat_load acc b (by omega), hbits, List.append_assoc, hrest,
          List.flatMap_append, List.append_assoc]
    · cases h
      exact ⟨[], b :: bs, by simp, by simp⟩

/-- The loop over the bytes of all coefficients reads all of them, and what is left is the padding. -/
theorem fixedDecodeLoop_bits {logn bits accLen : ℕ} {code : β → UInt32} {coeff : UInt32 → Option β}
    {bs : List UInt8} {acc : UInt32} {x : List β} (h0 : 0 < bits) (hb : bits ≤ 16) (hr : Recovers bits code coeff)
    (hl : bs.length = (2 ^ logn * bits + 7) / 8)
    (h : fixedDecodeLoop (2 ^ logn) bits coeff bs 0 0 [] = some (acc, accLen, x)) :
    accLen = 8 * bs.length - 2 ^ logn * bits ∧
      Bits.ofBytes bs = x.flatMap (codeBits bits code) ++ Bits.ofNat accLen acc.toNat := by
  have hlen := (fixedDecodeLoop_mem h (Nat.zero_le _) (by simp)).1
  obtain ⟨ys, rest, hx, hbits⟩ := fixedDecodeLoop_sound h0 hb hr (.inl h0) h
  rw [List.nil_append] at hx
  subst hx
  rw [Bits.ofNat_zero, List.nil_append] at hbits
  have hcount := congrArg List.length hbits
  rw [Bits.length_ofBytes, List.length_append, List.length_append, length_flatMap_codeBits, hlen, Bits.length_ofNat,
    Bits.length_ofBytes] at hcount
  obtain rfl : rest = [] := List.length_eq_zero_iff.1 (by omega)
  rw [List.length_nil] at hcount
  refine ⟨by omega, ?_⟩
  rw [hbits, Bits.ofBytes_nil, List.append_nil]

/-- What is accepted consists of the bits of the coefficients and zero padding. -/
theorem fixedDecode_sound {logn bits v : ℕ} {code : β → UInt32} {coeff : UInt32 → Option β} {buf : List UInt8}
    {x : List β} (h0 : 0 < bits) (hb : bits ≤ 16) (hr : Recovers bits code coeff)
    (h : fixedDecode logn bits coeff buf = some (x, v)) : v = (2 ^ logn * bits + 7) / 8 ∧ ∃ pad < 8,
      Bits.ofBytes (buf.take v) = x.flatMap (codeBits bits code) ++ List.replicate pad false := by
  have hn : 1 <<< logn = 2 ^ logn := by rw [Nat.shiftLeft_eq, one_mul]
  have hin : (2 ^ logn * bits + 7) >>> 3 = (2 ^ logn * bits + 7) / 8 := by rw [Nat.shiftRight_eq_div_pow]
  rw [fixedDecode] at h
  simp only [hn, hin] at h
  split at h
  · exact absurd h (by simp)
  · rename_i hle
    split at h
    · exact absurd h (by simp)
    · rename_i acc accLen x' hloop
      split at h
      · exact absurd h (by simp)
      · rename_i hpad
        cases h
        obtain ⟨hacc, hbits⟩ := fixedDecodeLoop_bits h0 hb hr (by rw [List.length_take]; omega) hloop
        have hacc7 : accLen ≤ 7 := by
          rw [List.length_take] at hacc
          omega
        have hzero := (padding_eq_zero acc hacc7).1 (not_not.1 hpad)
        exact ⟨rfl, accLen, by omega, by rw [hbits, Bits.ofNat_eq_replicate hzero]⟩

/-! ### Round trip -/

private theorem toNat_one_shiftLeft {k : ℕ} (hk : k < 32) : ((1 : UInt32) <<< UInt32.ofNat k).toNat = 2 ^ k := by
  have hlt : 2 ^ k < 2 ^ 32 := Nat.pow_lt_pow_right (by omega) hk
  rw [UInt32.toNat_shiftLeft, UInt32.toNat_ofNat', show (1 : UInt32).toNat = 1 from rfl, Nat.shiftLeft_eq, one_mul,
    Nat.mod_eq_of_lt (show k < 2 ^ 32 by omega), Nat.mod_eq_of_lt hk, Nat.mod_eq_of_lt hlt]

/-- The bits of a mask that are set stay set. -/
private theorem or_and_of_and {w n m : UInt32} (h : w &&& m = m) : (w ||| n) &&& m = m := by
  have hdist : (w ||| n) &&& m = (w &&& m) ||| (n &&& m) := by
    apply UInt32.toBitVec_inj.1
    exact BitVec.and_or_distrib_right
  have habsorb : m ||| (n &&& m) = m := by
    apply UInt32.toBitVec_inj.1
    apply BitVec.eq_of_getElem_eq
    intro i hi
    simp
  rw [hdist, h, habsorb]

/-- The sign bit is copied to the bits above it. -/
private theorem toNat_signExtend {k : ℕ} (hk : k < 32) {w : UInt32} (hw : w.toNat < 2 ^ (k + 1)) :
    (w &&& 1 <<< UInt32.ofNat k = if w.toNat < 2 ^ k then 0 else (1 : UInt32) <<< UInt32.ofNat k) ∧
      (w ||| -(w &&& 1 <<< UInt32.ofNat k)).toNat =
        if w.toNat < 2 ^ k then w.toNat else w.toNat + 2 ^ 32 - 2 ^ (k + 1) := by
  have hpos := Nat.two_pow_pos k
  have hsucc : 2 ^ (k + 1) = 2 * 2 ^ k := by rw [pow_succ, Nat.mul_comm]
  have hlt : 2 ^ k < 2 ^ 32 := Nat.pow_lt_pow_right (by omega) hk
  have hand : (w &&& 1 <<< UInt32.ofNat k).toNat = (w.toNat.testBit k).toNat * 2 ^ k := by
    rw [UInt32.toNat_and, toNat_one_shiftLeft hk, Nat.and_two_pow]
  by_cases h : w.toNat < 2 ^ k
  · have hzero : w &&& 1 <<< UInt32.ofNat k = 0 := by
      apply UInt32.toNat_inj.1
      rw [hand, Nat.testBit_lt_two_pow h]
      exact Nat.zero_mul _
    rw [if_pos h, if_pos h, hzero, UInt32.neg_zero, UInt32.or_zero]
    exact ⟨rfl, rfl⟩
  · obtain ⟨r, hr⟩ : ∃ r, w.toNat = 2 ^ k + r := ⟨w.toNat - 2 ^ k, by omega⟩
    have hrlt : r < 2 ^ k := by omega
    have hall : w &&& 1 <<< UInt32.ofNat k = 1 <<< UInt32.ofNat k := by
      apply UInt32.toNat_inj.1
      rw [hand, toNat_one_shiftLeft hk, hr, Nat.testBit_two_pow_add_eq, Nat.testBit_lt_two_pow hrlt]
      exact Nat.one_mul _
    -- the mask is all ones above the sign bit
    have hones : (2 ^ (32 - k) - 1) ||| 1 = 2 ^ (32 - k) - 1 := by
      apply Nat.eq_of_testBit_eq
      intro i
      rw [Nat.testBit_or, Nat.testBit_two_pow_sub_one]
      cases i with
      | zero => rw [decide_eq_true (by omega), Bool.true_or]
      | succ i =>
        have hone : Nat.testBit 1 (i + 1) = false := by
          rw [Nat.testBit_lt_two_pow (Nat.one_lt_two_pow (Nat.succ_ne_zero i))]
        rw [hone, Bool.or_false]
    have hneg : (-((1 : UInt32) <<< UInt32.ofNat k)).toNat = (2 ^ (32 - k) - 1) <<< k := by
      rw [UInt32.toNat_neg, toNat_one_shiftLeft hk, Nat.shiftLeft_eq, Nat.sub_mul, ← pow_add,
        Nat.sub_add_cancel (by omega), one_mul]
      exact Nat.mod_eq_of_lt (show 2 ^ 32 - 2 ^ k < 2 ^ 32 by omega)
    have hw1 : w.toNat = 1 <<< k ||| r := by
      rw [← Nat.shiftLeft_add_eq_or_of_lt hrlt, Nat.shiftLeft_eq, one_mul, hr]
    rw [if_neg h, if_neg h, hall]
    refine ⟨rfl, ?_⟩
    rw [UInt32.toNat_or, hneg, hw1, Nat.or_comm, ← Nat.or_assoc, ← Nat.shiftLeft_or_distrib, hones,
      ← Nat.shiftLeft_add_eq_or_of_lt hrlt, ← Nat.shiftLeft_add_eq_or_of_lt hrlt, Nat.shiftLeft_eq, Nat.shiftLeft_eq,
      Nat.sub_mul, ← pow_add, Nat.sub_add_cancel (by omega)]
    omega

/-- The coefficients that `bits` bits can hold; the smallest value is not used. -/
def TrimI16Range (bits : ℕ) (x : Int16) : Prop := -(2 ^ (bits - 1)) < x.toInt ∧ x.toInt < 2 ^ (bits - 1)

theorem toNat_toUInt16 (x : Int16) : (x.toUInt16.toNat : ℤ) = x.toInt % 2 ^ 16 := by
  have h := BitVec.toInt_eq_toNat_bmod x.toBitVec
  have hlt := x.toBitVec.isLt
  rw [Int16.toInt_toBitVec] at h
  rw [← Int16.toNat_toBitVec, h]
  generalize x.toBitVec.toNat = t at hlt ⊢
  rw [Int.bmod_def]
  split <;> omega

/-- The sign extension of the low bits of a coefficient. -/
private theorem signExtend_eq {k : ℕ} (hk : k < 16) {x : Int16} (h1 : -(2 ^ k) < x.toInt) (h2 : x.toInt < 2 ^ k)
    {w : UInt32} (hw : w.toNat = x.toUInt16.toNat % 2 ^ (k + 1)) : w.toNat < 2 ^ (k + 1) ∧
      (w.toNat < 2 ^ k ↔ 0 ≤ x.toInt) ∧ w ||| -(w &&& 1 <<< UInt32.ofNat k) = x.toInt32.toUInt32 := by
  have hpos : (0 : ℤ) < 2 ^ k := by positivity
  have hsucc : (2 : ℤ) ^ (k + 1) = 2 * 2 ^ k := by rw [pow_succ, mul_comm]
  have hle : (2 : ℤ) ^ k ≤ 2 ^ 15 := by exact_mod_cast Nat.pow_le_pow_right (by omega) (show k ≤ 15 by omega)
  have hmod : (w.toNat : ℤ) = x.toInt % 2 ^ (k + 1) := by
    have hdvd : (2 : ℤ) ^ (k + 1) ∣ 2 ^ 16 := pow_dvd_pow 2 (by omega)
    rw [hw]
    push_cast
    rw [toNat_toUInt16, Int.emod_emod_of_dvd _ hdvd]
  -- the value of the low bits, as an unsigned number
  have hval : (w.toNat : ℤ) = if 0 ≤ x.toInt then x.toInt else x.toInt + 2 ^ (k + 1) := by
    rw [hmod]
    split
    · exact Int.emod_eq_of_lt (by omega) (by omega)
    · rw [← Int.add_emod_right]
      exact Int.emod_eq_of_lt (by omega) (by omega)
  have hlt : w.toNat < 2 ^ (k + 1) := by
    have : (w.toNat : ℤ) < 2 ^ (k + 1) := by split at hval <;> omega
    exact_mod_cast this
  have hiff : w.toNat < 2 ^ k ↔ 0 ≤ x.toInt := by
    have : (w.toNat : ℤ) < 2 ^ k ↔ 0 ≤ x.toInt := by split at hval <;> omega
    rw [← this]
    exact_mod_cast Iff.rfl
  refine ⟨hlt, hiff, ?_⟩
  have hext := (toNat_signExtend (show k < 32 by omega) hlt).2
  have hx := toNat_toUInt32 x.toInt32
  rw [Int16.toInt_toInt32] at hx
  have hcast : ((2 ^ (k + 1) : ℕ) : ℤ) = 2 ^ (k + 1) := by push_cast; rfl
  apply UInt32.toNat_inj.1
  rw [hext]
  split
  · rename_i h
    rw [if_pos (hiff.1 h)] at hval
    omega
  · rename_i h
    rw [if_neg fun hc => h (hiff.2 hc)] at hval
    omega

private theorem trimI16Coeff_eq {k : ℕ} (hk : k < 16) {x : Int16} (h1 : -(2 ^ k) < x.toInt) (h2 : x.toInt < 2 ^ k)
    {w : UInt32} (hw : w.toNat = x.toUInt16.toNat % 2 ^ (k + 1)) : trimI16Coeff (k + 1) w = some x := by
  obtain ⟨hlt, hiff, hext⟩ := signExtend_eq hk h1 h2 hw
  obtain ⟨hand, hnat⟩ := toNat_signExtend (show k < 32 by omega) hlt
  have hsucc : 2 ^ (k + 1) = 2 * 2 ^ k := by rw [pow_succ, Nat.mul_comm]
  have hpos := Nat.two_pow_pos k
  have hle : 2 ^ k ≤ 2 ^ 15 := Nat.pow_le_pow_right (by omega) (by omega)
  -- extending the sign twice is extending it once
  have htwice : (w ||| -(w &&& 1 <<< UInt32.ofNat k)) |||
      -((w ||| -(w &&& 1 <<< UInt32.ofNat k)) &&& 1 <<< UInt32.ofNat k) = w ||| -(w &&& 1 <<< UInt32.ofNat k) := by
    by_cases h : w.toNat < 2 ^ k
    · rw [if_pos h] at hand
      rw [hand, UInt32.neg_zero, UInt32.or_zero, hand, UInt32.neg_zero, UInt32.or_zero]
    · rw [if_neg h] at hand
      have habs : (w ||| -(1 <<< UInt32.ofNat k)) &&& 1 <<< UInt32.ofNat k = 1 <<< UInt32.ofNat k := by
        exact or_and_of_and hand
      rw [hand, habs, UInt32.or_assoc, UInt32.or_self]
  have hne : w ||| -(w &&& 1 <<< UInt32.ofNat k) ≠ -(1 <<< UInt32.ofNat k) := by
    intro hc
    have hneg := congrArg UInt32.toNat (hext.symm.trans hc)
    have hx := toNat_toUInt32 x.toInt32
    rw [Int16.toInt_toInt32, hneg, UInt32.toNat_neg, toNat_one_shiftLeft (by omega)] at hx
    have hcast : (2 : ℤ) ^ k = (2 ^ k : ℕ) := by push_cast; rfl
    rw [hcast] at h1 h2
    have hsub : (UInt32.size - 2 ^ k) % UInt32.size = 2 ^ 32 - 2 ^ k :=
      Nat.mod_eq_of_lt (show 2 ^ 32 - 2 ^ k < 2 ^ 32 by omega)
    omega
  rw [trimI16Coeff]
  simp only [Nat.add_sub_cancel]
  rw [if_neg hne, htwice, hext, Int32.toInt32_toUInt32]
  simp

/-- A coefficient in the range of the encoding is made of its bits. -/
private theorem decodes_trimI16 {bits : ℕ} (h0 : 0 < bits) (hb : bits ≤ 16) {x : Int16} (hx : TrimI16Range bits x) :
    Decodes bits (fun z : Int16 => z.toUInt16.toUInt32) (trimI16Coeff bits) x := by
  obtain ⟨k, rfl⟩ : ∃ k, bits = k + 1 := ⟨bits - 1, by omega⟩
  intro w hw
  rw [UInt16.toNat_toUInt32] at hw
  exact trimI16Coeff_eq (by omega) hx.1 hx.2 hw

theorem length_fixedEncode {bits : ℕ} (code : β → UInt32) (hb : bits ≤ 16) (xs : List β) :
    (fixedEncode bits code xs).length = (xs.length * bits + 7) / 8 := by
  obtain ⟨pad, hp, hbits⟩ := fixedEncode_spec code hb xs
  have hlen := congrArg List.length hbits
  rw [Bits.length_ofBytes, List.length_append, length_flatMap_codeBits, List.length_replicate] at hlen
  omega

/-- The encoder only fails on a coefficient out of range or a small buffer. -/
theorem trimI16Encode_eq {maxOutLen logn bits : ℕ} {xs : List Int16} (hx : ∀ x ∈ xs, TrimI16Range bits x)
    (hroom : (2 ^ logn * bits + 7) / 8 ≤ maxOutLen) :
    trimI16Encode maxOutLen xs logn bits = some (fixedEncode bits (fun z => z.toUInt16.toUInt32) xs) := by
  have hmax : ((1 <<< (bits - 1) : ℕ) : ℤ) = 2 ^ (bits - 1) := by
    rw [Nat.shiftLeft_eq, one_mul]
    push_cast
    rfl
  have hany : ¬ xs.any (fun z => z.toInt < -(((1 <<< (bits - 1) : ℕ) : ℤ) - 1) ||
      z.toInt > ((1 <<< (bits - 1) : ℕ) : ℤ) - 1) = true := by
    rw [Bool.not_eq_true, List.any_eq_false, hmax]
    intro z hz
    obtain ⟨h1, h2⟩ := hx z hz
    rw [Bool.not_eq_true, Bool.or_eq_false_iff, decide_eq_false_iff_not, decide_eq_false_iff_not]
    omega
  have hlen : ¬ ((1 <<< logn) * bits + 7) >>> 3 > maxOutLen := by
    rw [Nat.shiftRight_eq_div_pow, Nat.shiftLeft_eq, one_mul]
    omega
  rw [trimI16Encode]
  simp only
  rw [if_neg hany, if_neg hlen]

/-- The decoder of signatures in the CT format inverts the encoder. -/
theorem trimI16Decode_fixedEncode {logn bits : ℕ} {xs : List Int16} (h0 : 0 < bits) (hb : bits ≤ 16)
    (hl : xs.length = 2 ^ logn) (hx : ∀ x ∈ xs, TrimI16Range bits x) :
    trimI16Decode logn bits (fixedEncode bits (fun z => z.toUInt16.toUInt32) xs) =
      some (xs, (2 ^ logn * bits + 7) / 8) := by
  obtain ⟨pad, hp, hbits⟩ := fixedEncode_spec (fun z : Int16 => z.toUInt16.toUInt32) hb xs
  have hlen := length_fixedEncode (fun z : Int16 => z.toUInt16.toUInt32) hb xs
  have hxs : ∀ x ∈ xs, Decodes bits (fun z : Int16 => z.toUInt16.toUInt32) (trimI16Coeff bits) x :=
    fun x hx' => decodes_trimI16 h0 hb (hx x hx')
  rw [trimI16Decode, ← List.append_nil (fixedEncode bits _ xs), fixedDecode_complete h0 hb hl hxs hp hbits, hlen, hl]

end DfVrf.Crypto
