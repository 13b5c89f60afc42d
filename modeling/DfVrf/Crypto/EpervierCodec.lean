import DfVrf.Crypto.Epervier16
import DfVrf.Lib.Words

/-!
# The Epervier codecs (`epervier16.c`)

Both codecs work word by word (`epCompEncode16_eq_encode`, `epCompDecode16_eq_decode` and the same for keys).  The
encoder of signatures adds `q` to the negative coefficients, and keys are encoded as they are; both decoders subtract
`q` from 2047 on, and admit the words with the top bit set, which are negative for them.

* `codecs_iff`: which vectors and byte strings the codecs give back.
-/

namespace DfVrf.Crypto

open InPlace Negacyclic Bytes

/-! ### Words -/

private theorem ofBytes_ofWords (ws : List UInt16) :
    Bits.ofBytes (ofWords ws) = ws.flatMap fun w => Bits.ofNat 16 w.toNat := by
  induction ws with
  | nil => rfl
  | cons w ws ih =>
    have hlow : Bits.ofNat 8 w.toUInt8.toNat = Bits.ofNat 8 w.toNat := by
      apply Bits.ofNat_congr
      rw [UInt16.toNat_toUInt8]
      exact Nat.mod_mod _ _
    rw [ofWords_cons, Bits.ofBytes_cons, Bits.ofBytes_cons, toNat_high, hlow, ih, List.flatMap_cons,
      show 16 = 8 + 8 from rfl, Bits.ofNat_add, List.append_assoc]
    rfl

/-- An encoder with 16 bits a coefficient writes words. -/
private theorem fixedEncode_words {β : Type*} (code : β → UInt32) (xs : List β) :
    fixedEncode 16 code xs = ofWords (xs.map fun x => (code x).toUInt16) := by
  obtain ⟨pad, hp, hbits⟩ := fixedEncode_spec code (show 16 ≤ 16 from le_rfl) xs
  refine Bits.eq_of_padding hp (show 0 < 8 by omega) hbits ?_
  rw [ofBytes_ofWords, List.replicate_zero, List.append_nil, List.flatMap_map]
  congr 1
  funext x
  apply Bits.ofNat_congr
  rw [UInt32.toNat_toUInt16]
  exact Nat.mod_mod _ _

/-- The accumulator after two bytes. -/
private theorem word_of_acc (acc : UInt32) (a b : UInt8) :
    ((((acc <<< 8) ||| a.toUInt32) <<< 8) ||| b.toUInt32) >>> UInt32.ofNat 0 &&& ((1 <<< UInt32.ofNat 16) - 1) =
      (UInt16.ofNat (a.toNat * 256 + b.toNat)).toUInt32 := by
  have hbits : Bits.ofNat 16 ((((acc <<< 8) ||| a.toUInt32) <<< 8) ||| b.toUInt32).toNat =
      Bits.ofNat 16 (a.toNat * 256 + b.toNat) := by
    rw [ofNat_load _ b (show 8 ≤ 24 by omega), show 8 = 0 + 8 from rfl, ofNat_load acc a (show 0 ≤ 24 by omega),
      Bits.ofNat_zero, List.nil_append]
    exact (Bits.ofNat_shift 8 a.toNat (show b.toNat < 2 ^ 8 from b.toNat_lt)).symm
  apply UInt32.toNat_inj.1
  rw [toNat_and_mask _ (by omega), toNat_shiftRight_ofNat _ (by omega), pow_zero, Nat.div_one, UInt16.toNat_toUInt32,
    UInt16.toNat_ofNat', Bits.ofNat_injective hbits]

section Decoder

variable {β : Type*} (coeff : UInt32 → Option β)

/-- Two bytes make a coefficient. -/
private theorem fixedDecodeLoop_cons_cons {n : ℕ} (acc : UInt32) (a b : UInt8) (bs : List UInt8) {x : List β}
    (hx : x.length < n) : ∃ acc', fixedDecodeLoop n 16 coeff (a :: b :: bs) acc 0 x =
      (coeff (UInt16.ofNat (a.toNat * 256 + b.toNat)).toUInt32).bind fun y =>
        fixedDecodeLoop n 16 coeff bs acc' 0 (x ++ [y]) := by
  refine ⟨((acc <<< 8) ||| a.toUInt32) <<< 8 ||| b.toUInt32, ?_⟩
  rw [fixedDecodeLoop, if_pos hx]
  simp only [fixedTake_of_lt coeff _ x (show 0 + 8 < 16 by omega)]
  rw [fixedDecodeLoop, if_pos hx]
  simp only [show 0 + 8 + 8 = 15 + 1 from rfl]
  rw [fixedTake, if_pos ⟨le_rfl, hx⟩]
  simp only [show 15 + 1 - 16 = 0 from rfl, word_of_acc]
  cases coeff (UInt16.ofNat (a.toNat * 256 + b.toNat)).toUInt32 with
  | none => rfl
  | some y => simp only [fixedTake_of_lt coeff _ _ (show 0 < 16 by omega), Option.bind_some]

/-- The loop decodes the words. -/
private theorem fixedDecodeLoop_words {n k : ℕ} {bs : List UInt8} (hl : bs.length = 2 * k) (acc : UInt32) {x : List β}
    (hx : x.length + k = n) : (fixedDecodeLoop n 16 coeff bs acc 0 x).map Prod.snd =
      ((words bs).mapM fun w => coeff w.toUInt32).map fun ys => (0, x ++ ys) := by
  induction k generalizing bs acc x with
  | zero =>
    obtain rfl : bs = [] := List.length_eq_zero_iff.1 hl
    rw [fixedDecodeLoop, if_neg (by omega)]
    simp [words]
  | succ k ih =>
    rcases bs with _ | ⟨a, _ | ⟨b, bs⟩⟩
    · simp at hl
    · simp at hl
      omega
    · have hl' : bs.length = 2 * k := by
        rw [List.length_cons, List.length_cons] at hl
        omega
      obtain ⟨acc', hstep⟩ := fixedDecodeLoop_cons_cons coeff acc a b bs (show x.length < n by omega)
      rw [hstep, words, Entrywise.mapM_cons]
      cases coeff (UInt16.ofNat (a.toNat * 256 + b.toNat)).toUInt32 with
      | none => rfl
      | some y =>
        rw [Option.bind_some, Option.bind_some, ih hl' acc' (by rw [List.length_append, List.length_singleton]; omega),
          Option.map_map]
        congr 1
        funext ys
        rw [Function.comp_apply, List.append_assoc, List.singleton_append]

/-- A decoder with 16 bits a coefficient decodes the words of its input. -/
private theorem fixedDecode_words (logn : ℕ) (buf : List UInt8) : fixedDecode logn 16 coeff buf =
    if 2 * 2 ^ logn > buf.length then none
    else ((words (buf.take (2 * 2 ^ logn))).mapM fun w => coeff w.toUInt32).map fun ys => (ys, 2 * 2 ^ logn) := by
  have hn : 1 <<< logn = 2 ^ logn := by rw [Nat.shiftLeft_eq, one_mul]
  have hin : (2 ^ logn * 16 + 7) >>> 3 = 2 * 2 ^ logn := by
    rw [Nat.shiftRight_eq_div_pow]
    omega
  rw [fixedDecode]
  simp only [hn, hin]
  by_cases hlen : 2 * 2 ^ logn > buf.length
  · rw [if_pos hlen, if_pos hlen]
  · have htake : (buf.take (2 * 2 ^ logn)).length = 2 * 2 ^ logn := by
      rw [List.length_take]
      omega
    have hloop := fixedDecodeLoop_words coeff htake 0 (show ([] : List β).length + 2 ^ logn = 2 ^ logn by simp)
    rw [if_neg hlen, if_neg hlen]
    cases hdec : fixedDecodeLoop (2 ^ logn) 16 coeff (buf.take (2 * 2 ^ logn)) 0 0 [] with
    | none =>
      rw [hdec, Option.map_none] at hloop
      rw [Option.map_eq_none_iff.1 hloop.symm]
      rfl
    | some t =>
      obtain ⟨acc, accLen, x⟩ := t
      rw [hdec, Option.map_some] at hloop
      obtain ⟨ys, hys, heq⟩ := Option.map_eq_some_iff.1 hloop.symm
      obtain ⟨rfl, rfl⟩ := Prod.mk.inj heq
      rw [hys]
      -- no bits are left
      have hmask : acc &&& ((1 <<< UInt32.ofNat 0) - 1) = 0 := UInt32.and_zero
      simp only [hmask]
      simp

end Decoder

/-! ### The conversions of a word -/

/-- The arithmetic shift of a word of 32 bits by its sign bit. -/
private theorem sar_31 (x : Int32) : x >>> (31 : Int32) = if x.toInt < 0 then -1 else 0 := by
  have h1 := Int32.le_toInt x
  have h2 := Int32.toInt_lt x
  have hshift : (x >>> (31 : Int32)).toInt = x.toInt / 2 ^ 31 := by
    rw [← Int32.toInt_toBitVec, Int32.toBitVec_shiftRight, BitVec.toInt_sshiftRight', Int32.toInt_toBitVec]
    exact Int.shiftRight_eq_div_pow _ _
  apply Int32.toInt_inj.1
  rw [hshift]
  split
  · rename_i h
    rw [show (-1 : Int32).toInt = -1 from rfl]
    omega
  · rename_i h
    rw [show (0 : Int32).toInt = 0 from rfl]
    omega

theorem toInt_toInt16 (w : UInt16) :
    w.toInt16.toInt = if w.toNat < 2 ^ 15 then (w.toNat : ℤ) else w.toNat - 2 ^ 16 := by
  have hw := w.toNat_lt
  rw [← Int16.toInt_toBitVec, UInt16.toBitVec_toInt16, BitVec.toInt_eq_toNat_bmod, UInt16.toNat_toBitVec, Int.bmod_def]
  split <;> split <;> omega

/-- The words that the decoders admit. -/
def Admitted (w : UInt16) : Prop := w.toNat < 12289 ∨ 2 ^ 15 ≤ w.toNat

instance (w : UInt16) : Decidable (Admitted w) := by
  unfold Admitted
  infer_instance

/-- What the decoders make of a word. -/
def centred (w : UInt16) : ℤ :=
  if w.toNat < 2047 then w.toNat else if w.toNat < 12289 then w.toNat - 12289 else w.toNat - 2 ^ 16

private theorem epCoeff_word (w : UInt16) :
    epCoeff w.toUInt32 = if Admitted w then some (Int16.ofInt (centred w)) else none := by
  have hw := w.toNat_lt
  have hval := toInt_toInt16 w
  have hq : (12289 : Int16).toInt = 12289 := rfl
  have hge : w.toInt16 ≥ 12289 ↔ ¬ Admitted w := by
    rw [ge_iff_le, Int16.le_iff_toInt_le, hq, Admitted]
    split at hval <;> omega
  have hz : w.toInt16.toInt32.toInt = w.toInt16.toInt := Int16.toInt_toInt32 _
  have hsub : ∀ c : Int32, c.toInt = 0 ∨ c.toInt = 2047 ∨ c.toInt = 12289 →
      (w.toInt16.toInt32 - c).toInt = w.toInt16.toInt - c.toInt := by
    intro c hc
    rw [Int32.toInt_sub, hz]
    apply Int.bmod_eq_of_le
    all_goals split at hval <;> omega
  -- the mask selects `q` from 2047 on
  have hmask : (12289 : Int32) &&& ~~~((w.toInt16.toInt32 - 2047) >>> (31 : Int32)) =
      if w.toInt16.toInt < 2047 then 0 else 12289 := by
    rw [sar_31, hsub 2047 (.inr (.inl rfl)), show (2047 : Int32).toInt = 2047 from rfl]
    split <;> split <;> first | rfl | omega
  rw [epCoeff, UInt16.toUInt16_toUInt32, hmask]
  by_cases hacc : Admitted w
  · rw [if_neg (fun hc => hge.1 hc hacc), if_pos hacc, Option.some.injEq]
    apply Int16.toInt_inj.1
    rw [Int32.toInt_toInt16, Int16.toInt_ofInt]
    congr 1
    have hacc' := hacc
    rw [Admitted] at hacc'
    rw [centred]
    by_cases hsmall : w.toInt16.toInt < 2047
    · rw [if_pos hsmall, hsub 0 (.inl rfl), show (0 : Int32).toInt = 0 from rfl]
      split at hval <;> split <;> omega
    · rw [if_neg hsmall, hsub 12289 (.inr (.inr rfl)), show (12289 : Int32).toInt = 12289 from rfl]
      split at hval <;> split <;> omega
  · rw [if_pos (hge.2 hacc), if_neg hacc]

private theorem toInt_centred {w : UInt16} (hw : Admitted w) : (Int16.ofInt (centred w)).toInt = centred w := by
  have hlt := w.toNat_lt
  have hsize : ((Int16.size : ℕ) : ℤ) = 2 ^ 16 := rfl
  rw [Admitted] at hw
  rw [Int16.toInt_ofInt]
  apply Int.bmod_eq_of_le
  all_goals
    rw [centred]
    split <;> omega

/-! ### Signatures -/

/-- The codec of signatures. -/
def compCodec : WordCodec Int16 where
  refuses z := z ≥ 12289 || z ≤ -12289
  enc z := (epCode z).toUInt16
  dec w := epCoeff w.toUInt32

theorem epCompEncode16_eq_encode (maxOutLen : ℕ) (x : List Int16) (logn : ℕ) :
    epCompEncode16 maxOutLen x logn = compCodec.encode (2 ^ logn) maxOutLen x := by
  have hn : ((1 <<< logn) * 16 + 7) >>> 3 = 2 * 2 ^ logn := by
    rw [Nat.shiftLeft_eq, one_mul, Nat.shiftRight_eq_div_pow]
    omega
  rw [epCompEncode16, WordCodec.encode]
  simp only [hn, fixedEncode_words]
  rfl

theorem epCompDecode16_eq_decode (logn : ℕ) (buf : List UInt8) :
    epCompDecode16 logn buf = compCodec.decode (2 ^ logn) buf := fixedDecode_words epCoeff logn buf

theorem compCodec_refuses_iff (z : Int16) : compCodec.refuses z = false ↔ EpRange z := by
  have hq : (12289 : Int16).toInt = 12289 := rfl
  have hq' : (-12289 : Int16).toInt = -12289 := rfl
  rw [compCodec, Bool.or_eq_false_iff, decide_eq_false_iff_not, decide_eq_false_iff_not, ge_iff_le,
    Int16.le_iff_toInt_le, Int16.le_iff_toInt_le, hq, hq', EpRange]
  omega

/-- The word of a coefficient is its residue modulo `q`. -/
private theorem toNat_compCodec_enc {z : Int16} (hz : EpRange z) :
    ((compCodec.enc z).toNat : ℤ) = if z.toInt < 0 then z.toInt + 12289 else z.toInt := by
  obtain ⟨h1, h2⟩ := hz
  have hmask : (z.toInt32 >>> (31 : Int32)) &&& (12289 : Int32) = if z.toInt < 0 then 12289 else 0 := by
    rw [sar_31, Int16.toInt_toInt32]
    split <;> rfl
  have hsum : (z.toInt32 + if z.toInt < 0 then (12289 : Int32) else 0).toInt =
      if z.toInt < 0 then z.toInt + 12289 else z.toInt := by
    rw [Int32.toInt_add, Int16.toInt_toInt32]
    split
    · exact Int.bmod_eq_of_le (by rw [show (12289 : Int32).toInt = 12289 from rfl]; omega)
        (by rw [show (12289 : Int32).toInt = 12289 from rfl]; omega)
    · rw [show (0 : Int32).toInt = 0 from rfl, add_zero]
      exact Int.bmod_eq_of_le (by omega) (by omega)
  have hcode := toNat_toUInt32 (z.toInt32 + if z.toInt < 0 then (12289 : Int32) else 0)
  rw [hsum] at hcode
  rw [compCodec]
  simp only
  rw [epCode, hmask, UInt32.toNat_toUInt16]
  push_cast
  rw [hcode]
  split <;> omega

/-- A coefficient is decoded again exactly if it is at most 2046, in the range of half the modulus. -/
private theorem compCodec_roundTrip {z : Int16} (h1 : -6144 ≤ z.toInt) (h2 : z.toInt ≤ 6144) :
    compCodec.dec (compCodec.enc z) = some z ↔ z.toInt < 2047 := by
  have henc := toNat_compCodec_enc (show EpRange z from ⟨by omega, by omega⟩)
  have hadm : Admitted (compCodec.enc z) := by
    left
    split at henc <;> omega
  have hval := toInt_centred hadm
  have hdec : compCodec.dec (compCodec.enc z) = some (Int16.ofInt (centred (compCodec.enc z))) := by
    show epCoeff _ = _
    rw [epCoeff_word, if_pos hadm]
  rw [hdec, Option.some.injEq, ← Int16.toInt_inj, hval, centred]
  split at henc <;> split <;> omega

/-- A word is encoded again exactly if it is reduced. -/
private theorem compCodec_canonical (w : UInt16) :
    (∃ z, compCodec.dec w = some z ∧ compCodec.refuses z = false ∧ compCodec.enc z = w) ↔ w.toNat < 12289 := by
  have hw := w.toNat_lt
  have hdec : compCodec.dec w = if Admitted w then some (Int16.ofInt (centred w)) else none := epCoeff_word w
  rw [hdec]
  by_cases hadm : Admitted w
  · have hval := toInt_centred hadm
    rw [if_pos hadm]
    generalize Int16.ofInt (centred w) = x at hval ⊢
    constructor
    · rintro ⟨z, hz, hrange, henc⟩
      obtain rfl := Option.some.inj hz
      have hnat := toNat_compCodec_enc ((compCodec_refuses_iff _).1 hrange)
      rw [henc, hval, centred] at hnat
      by_contra hbig
      rw [if_neg (show ¬ w.toNat < 2047 by omega), if_neg hbig] at hnat
      split at hnat <;> omega
    · intro hlt
      have hc : centred w = if w.toNat < 2047 then (w.toNat : ℤ) else w.toNat - 12289 := by rw [centred, if_pos hlt]
      have hrange : EpRange x := by
        rw [EpRange, hval, hc]
        split <;> omega
      refine ⟨_, rfl, (compCodec_refuses_iff _).2 hrange, ?_⟩
      have hnat := toNat_compCodec_enc hrange
      rw [hval, hc] at hnat
      apply UInt16.toNat_inj.1
      split at hnat <;> split at hnat <;> omega
  · rw [if_neg hadm]
    refine iff_of_false (fun ⟨z, hz, _⟩ => absurd hz (by simp)) fun hlt => hadm (.inl hlt)

/-! ### Keys -/

/-- The codec of keys. -/
def modqCodec : WordCodec UInt16 where
  refuses y := y ≥ 12289
  enc y := y.toUInt32.toUInt16
  dec w := (epCoeff w.toUInt32).map Int16.toUInt16

private theorem epModqEncode16_eq_encode (maxOutLen : ℕ) (x : List UInt16) (logn : ℕ) :
    epModqEncode16 maxOutLen x logn = modqCodec.encode (2 ^ logn) maxOutLen x := by
  have hn : ((1 <<< logn) * 16 + 7) >>> 3 = 2 * 2 ^ logn := by
    rw [Nat.shiftLeft_eq, one_mul, Nat.shiftRight_eq_div_pow]
    omega
  rw [epModqEncode16, WordCodec.encode]
  simp only [hn, fixedEncode_words]
  rfl

private theorem epModqDecode16_eq_decode (logn : ℕ) (buf : List UInt8) :
    epModqDecode16 logn buf = modqCodec.decode (2 ^ logn) buf := fixedDecode_words _ logn buf

theorem modqCodec_refuses_iff (y : UInt16) : modqCodec.refuses y = false ↔ y.toNat < 12289 := by
  rw [modqCodec, decide_eq_false_iff_not, ge_iff_le, UInt16.le_iff_toNat_le,
    show (12289 : UInt16).toNat = 12289 from rfl]
  omega

private theorem modqCodec_enc (y : UInt16) : modqCodec.enc y = y := UInt16.toUInt16_toUInt32 y

/-- The encoder of keys writes the entries. -/
private theorem epModqEncode16_eq {room logn : ℕ} {x : List UInt16} (hx : ∀ y ∈ x, y.toNat < 12289)
    (hroom : 2 * 2 ^ logn ≤ room) : epModqEncode16 room x logn = some (ofWords x) := by
  have hrefuses : ∀ y ∈ x, modqCodec.refuses y = false := fun y hy => (modqCodec_refuses_iff y).2 (hx y hy)
  rw [epModqEncode16_eq_encode, WordCodec.encode_eq hrefuses hroom, funext modqCodec_enc, List.map_id']

/-- The entry that is made of a word, as an unsigned number. -/
private theorem modqCodec_dec (w : UInt16) : modqCodec.dec w =
    if Admitted w then some (if 2047 ≤ w.toNat ∧ w.toNat < 12289 then UInt16.ofNat (w.toNat + 53247) else w)
    else none := by
  have hw := w.toNat_lt
  show (epCoeff w.toUInt32).map Int16.toUInt16 = _
  rw [epCoeff_word]
  by_cases hadm : Admitted w
  · have hval := toInt_centred hadm
    have hnat := toNat_toUInt16 (Int16.ofInt (centred w))
    rw [if_pos hadm, if_pos hadm, Option.map_some, Option.some.injEq]
    generalize Int16.ofInt (centred w) = x at hval hnat ⊢
    rw [hval, centred] at hnat
    rw [Admitted] at hadm
    apply UInt16.toNat_inj.1
    split
    · rename_i hmid
      rw [if_neg (by omega), if_pos hmid.2] at hnat
      rw [UInt16.toNat_ofNat']
      omega
    · rename_i hmid
      by_cases hsmall : w.toNat < 2047
      · rw [if_pos hsmall] at hnat
        omega
      · rw [if_neg hsmall, if_neg (by omega)] at hnat
        omega
  · rw [if_neg hadm, if_neg hadm, Option.map_none]

private theorem modqCodec_roundTrip {y : UInt16} (hy : y.toNat < 12289) :
    modqCodec.dec (modqCodec.enc y) = some y ↔ y.toNat < 2047 := by
  rw [modqCodec_enc, modqCodec_dec, if_pos (.inl hy), Option.some.injEq, ← UInt16.toNat_inj]
  split
  · rename_i hmid
    rw [UInt16.toNat_ofNat']
    omega
  · omega

private theorem modqCodec_canonical (w : UInt16) :
    (∃ y, modqCodec.dec w = some y ∧ modqCodec.refuses y = false ∧ modqCodec.enc y = w) ↔ w.toNat < 2047 := by
  constructor
  · rintro ⟨y, hy, hrange, henc⟩
    rw [modqCodec_enc] at henc
    subst henc
    have hlt := (modqCodec_refuses_iff y).1 hrange
    rw [← modqCodec_enc y] at hy
    exact (modqCodec_roundTrip hlt).1 (by rwa [modqCodec_enc y] at hy ⊢)
  · intro hlt
    exact ⟨w, by have := (modqCodec_roundTrip (show w.toNat < 12289 by omega)).2 hlt; rwa [modqCodec_enc] at this,
      (modqCodec_refuses_iff w).2 (by omega), modqCodec_enc w⟩

/-! ### Inverses -/

/-- The coefficients of a signature polynomial. -/
structure SigPoly (logn : ℕ) where
  coeffs : List Int16
  length_eq : coeffs.length = 2 ^ logn
  bound : ∀ z ∈ coeffs, -6144 ≤ z.toInt ∧ z.toInt ≤ 6144

/-- The coefficients of a public key. -/
structure KeyPoly (logn : ℕ) where
  coeffs : List UInt16
  length_eq : coeffs.length = 2 ^ logn
  bound : ∀ y ∈ coeffs, y.toNat < 12289

/-- Decoding an encoded signature polynomial gives it back, with the same number of bytes. -/
def CompRoundTrips {logn : ℕ} (x : SigPoly logn) : Prop := ∀ room ≥ 2 * 2 ^ logn, ∃ out,
  epCompEncode16 room x.coeffs logn = some out ∧ epCompDecode16 logn out = some (x.coeffs, out.length)

/-- Decoding an encoded key gives it back, with the same number of bytes. -/
def ModqRoundTrips {logn : ℕ} (h : KeyPoly logn) : Prop := ∀ room ≥ 2 * 2 ^ logn, ∃ out,
  epModqEncode16 room h.coeffs logn = some out ∧ epModqDecode16 logn out = some (h.coeffs, out.length)

/-- If the decoder of signatures accepts a byte string, the encoder gives back the bytes read. -/
def CompCanonical (logn : ℕ) (buf : List UInt8) : Prop := ∀ x v, epCompDecode16 logn buf = some (x, v) →
  ∀ room ≥ v, epCompEncode16 room x logn = some (buf.take v)

/-- If the decoder of keys accepts a byte string, the encoder gives back the bytes read. -/
def ModqCanonical (logn : ℕ) (buf : List UInt8) : Prop := ∀ h v, epModqDecode16 logn buf = some (h, v) →
  ∀ room ≥ v, epModqEncode16 room h logn = some (buf.take v)

/-- `zknox_pk_epervier` replaces the encoding of a key by the encoding of its transform. -/
def PkReplaces (h : KeyPoly 9) : Prop := ∃ key out, epModqEncode16 1024 h.coeffs 9 = some key ∧
  epModqEncode16 1024 (mqNtt h.coeffs 9) 9 = some out ∧
    ∀ pk : ByteVec 1025, pk.1 = 0x09 :: key → pkEpervier pk = .ok (0x09 :: out)

/-- The words that a decoder reads. -/
def epWords (logn : ℕ) (buf : List UInt8) : List UInt16 := words (buf.take (2 * 2 ^ logn))

/-- A byte string that the decoders accept: it is long enough, and no word is in `[12289, 2 ^ 15)`. -/
def EpAccepted (logn : ℕ) (buf : List UInt8) : Prop :=
  2 * 2 ^ logn ≤ buf.length ∧ ∀ w ∈ epWords logn buf, Admitted w

theorem compRoundTrips_iff {logn : ℕ} (x : SigPoly logn) : CompRoundTrips x ↔ ∀ z ∈ x.coeffs, z.toInt < 2047 := by
  have hrange : ∀ z ∈ x.coeffs, compCodec.refuses z = false := by
    intro z hz
    have hb := x.bound z hz
    exact (compCodec_refuses_iff z).2 ⟨by omega, by omega⟩
  simp only [CompRoundTrips, epCompEncode16_eq_encode, epCompDecode16_eq_decode]
  refine (WordCodec.roundTrips_iff x.length_eq hrange).trans (forall₂_congr fun z hz => ?_)
  exact compCodec_roundTrip (x.bound z hz).1 (x.bound z hz).2

theorem modqRoundTrips_iff {logn : ℕ} (h : KeyPoly logn) : ModqRoundTrips h ↔ ∀ y ∈ h.coeffs, y.toNat < 2047 := by
  have hrange : ∀ y ∈ h.coeffs, modqCodec.refuses y = false := fun y hy => (modqCodec_refuses_iff y).2 (h.bound y hy)
  simp only [ModqRoundTrips, epModqEncode16_eq_encode, epModqDecode16_eq_decode]
  exact (WordCodec.roundTrips_iff h.length_eq hrange).trans
    (forall₂_congr fun y hy => modqCodec_roundTrip (h.bound y hy))

theorem compCodec_accepts_iff (logn : ℕ) (buf : List UInt8) :
    compCodec.Accepts (2 ^ logn) buf ↔ EpAccepted logn buf := by
  refine and_congr_right fun _ => forall₂_congr fun w _ => ?_
  show (epCoeff w.toUInt32).isSome ↔ _
  rw [epCoeff_word]
  split <;> simpa

theorem modqCodec_accepts_iff (logn : ℕ) (buf : List UInt8) :
    modqCodec.Accepts (2 ^ logn) buf ↔ EpAccepted logn buf := by
  refine and_congr_right fun _ => forall₂_congr fun w _ => ?_
  rw [modqCodec_dec]
  split <;> simpa

theorem compCanonical_iff (logn : ℕ) (buf : List UInt8) :
    CompCanonical logn buf ↔ ¬ EpAccepted logn buf ∨ ∀ w ∈ epWords logn buf, w.toNat < 12289 := by
  simp only [CompCanonical, epCompEncode16_eq_encode, epCompDecode16_eq_decode]
  refine WordCodec.canonical_iff.trans (or_congr (not_congr (compCodec_accepts_iff logn buf)) ?_)
  exact forall₂_congr fun w _ => compCodec_canonical w

theorem modqCanonical_iff (logn : ℕ) (buf : List UInt8) :
    ModqCanonical logn buf ↔ ¬ EpAccepted logn buf ∨ ∀ w ∈ epWords logn buf, w.toNat < 2047 := by
  simp only [ModqCanonical, epModqEncode16_eq_encode, epModqDecode16_eq_decode]
  refine WordCodec.canonical_iff.trans (or_congr (not_congr (modqCodec_accepts_iff logn buf)) ?_)
  exact forall₂_congr fun w _ => modqCodec_canonical w

/-! ### The transform of a key -/

/-- What `ep_modq_decode16` makes of an encoded entry. -/
def decodedEntry (y : UInt16) : UInt16 := if 2047 ≤ y.toNat ∧ y.toNat < 12289 then UInt16.ofNat (y.toNat + 53247) else y

/-- `53247` is not a multiple of `q`, so that the entries that are decoded wrongly are wrong modulo `q`. -/
private theorem toZq_decodedEntry {y : UInt16} (hy : y.toNat < 12289)
    (h : toZq (decodedEntry y).toUInt32 = toZq y.toUInt32) : y.toNat < 2047 := by
  by_contra hc
  have hval : (decodedEntry y).toUInt32.toNat = y.toNat + 53247 := by
    rw [decodedEntry, if_pos ⟨by omega, hy⟩, UInt16.toNat_toUInt32, UInt16.toNat_ofNat']
    omega
  have hmod := (ZMod.natCast_eq_natCast_iff _ _ 12289).1 h
  rw [hval, UInt16.toNat_toUInt32, Nat.ModEq] at hmod
  omega

private theorem decodedEntry_of_lt {y : UInt16} (hy : y.toNat < 2047) : decodedEntry y = y := by
  rw [decodedEntry, if_neg (by omega)]

private theorem Rep.forall_mem_lt {n : ℕ} {a : List UInt16} {f : ℕ → Zq} (h : Rep n a f) :
    ∀ y ∈ a, y.toNat < 12289 := by
  intro y hy
  have hok := h.forall_mem y hy
  rwa [Reduced, UInt16.toNat_toUInt32] at hok

section Transform

variable (h : KeyPoly 9)

private theorem KeyPoly.represents : Rep (2 ^ 9) h.coeffs (fun e => toZq (rd h.coeffs e).toUInt32) :=
  Represents.of_forall_mem h.length_eq fun y hy => by
    rw [Reduced, UInt16.toNat_toUInt32]
    exact h.bound y hy

/-- The key behind its header byte. -/
def KeyPoly.pk : ByteVec 1025 :=
  ⟨0x09 :: ofWords h.coeffs, by
    rw [List.length_cons, length_ofWords, h.length_eq]
    rfl⟩

/-- `zknox_pk_epervier` transforms what it has decoded. -/
theorem pkEpervier_eq_ok_iff (out : List UInt8) : pkEpervier h.pk = .ok (0x09 :: out) ↔
    epModqEncode16 1024 (mqNtt (h.coeffs.map decodedEntry) 9) 9 = some out ∧ out.length = 1024 := by
  have hmap : h.coeffs.mapM modqCodec.dec = some (h.coeffs.map decodedEntry) := by
    refine Entrywise.mapM_eq_map fun y hy => ?_
    rw [modqCodec_dec, if_pos (.inl (h.bound y hy)), decodedEntry]
  have hdec : epModqDecode16 epervierLogn (h.pk.1.drop 1) = some (h.coeffs.map decodedEntry, 1024) := by
    rw [epervierLogn, epModqDecode16_eq_decode, KeyPoly.pk, List.drop_one, List.tail_cons,
      WordCodec.decode_ofWords h.length_eq, hmap]
    rfl
  have hhead : ¬ rd h.pk.1 0 ≠ UInt8.ofNat (0x00 + epervierLogn) := not_not.2 rfl
  rw [pkEpervier, if_neg hhead, hdec]
  simp only [show epervierPubkeySize - 1 = 1024 from rfl, show epervierLogn = 9 from rfl]
  rw [if_neg (by omega)]
  cases epModqEncode16 1024 (mqNtt (h.coeffs.map decodedEntry) 9) 9 with
  | none => simp
  | some key =>
    simp only [Option.some.injEq]
    by_cases hlen : key.length = 1024
    · rw [if_neg (not_not.2 hlen), Except.ok.injEq, List.cons.injEq]
      exact ⟨fun hc => ⟨hc.2, hc.2 ▸ hlen⟩, fun hc => ⟨rfl, hc.1⟩⟩
    · rw [if_pos hlen]
      exact iff_of_false (by simp) fun hc => hlen (hc.1 ▸ hc.2)

theorem pkReplaces_iff : PkReplaces h ↔ ∀ y ∈ h.coeffs, y.toNat < 2047 := by
  have hrep := mqNtt_rep (by omega) h.represents
  have henc : epModqEncode16 1024 h.coeffs 9 = some (ofWords h.coeffs) := epModqEncode16_eq h.bound (by omega)
  constructor
  · rintro ⟨key, out, hkey, hout, hpk⟩ y hy
    rw [henc] at hkey
    obtain rfl := Option.some.inj hkey
    obtain ⟨hout', -⟩ := (pkEpervier_eq_ok_iff h out).1 (hpk h.pk rfl)
    -- the two transforms have the same encoding, hence they are equal
    have hntt : mqNtt (h.coeffs.map decodedEntry) 9 = mqNtt h.coeffs 9 := by
      rw [epModqEncode16_eq_encode] at hout hout'
      have hmap := ofWords_injective ((WordCodec.encode_eq_some_iff.1 hout').2.2.trans
        (WordCodec.encode_eq_some_iff.1 hout).2.2.symm)
      rwa [funext modqCodec_enc, List.map_id', List.map_id'] at hmap
    have hdecoded : Represents (fun x : UInt16 => toZq x.toUInt32) (fun _ => True) (2 ^ 9) (h.coeffs.map decodedEntry)
        (fun e => toZq (rd (h.coeffs.map decodedEntry) e).toUInt32) :=
      Represents.of_forall_mem (by rw [List.length_map, h.length_eq]) fun _ _ => trivial
    have hrep' := mqNtt_represents butterflyOk_true (by omega) hdecoded
    rw [hntt] at hrep'
    obtain ⟨i, hi, rfl⟩ := List.getElem_of_mem hy
    have hval := eq_of_fwd_twiddle_eq (fun e he => (hrep'.val_rd e he).symm.trans (hrep.val_rd e he))
      (show i < 512 by have := h.length_eq; omega)
    rw [rd_map _ hi, rd_eq_getElem hi] at hval
    exact toZq_decodedEntry (h.bound _ (List.getElem_mem hi)) hval
  · intro hsmall
    have hid : h.coeffs.map decodedEntry = h.coeffs := by
      rw [List.map_congr_left fun y hy => decodedEntry_of_lt (hsmall y hy), List.map_id']
    have hntt : epModqEncode16 1024 (mqNtt h.coeffs 9) 9 = some (ofWords (mqNtt h.coeffs 9)) :=
      epModqEncode16_eq hrep.forall_mem_lt (by omega)
    have hlen : (ofWords (mqNtt h.coeffs 9)).length = 1024 := by
      rw [length_ofWords, hrep.length]
      rfl
    refine ⟨_, _, henc, hntt, fun pk hpk => ?_⟩
    obtain rfl : pk = h.pk := Subtype.ext hpk
    refine (pkEpervier_eq_ok_iff h _).2 ⟨?_, hlen⟩
    rw [hid, hntt]

end Transform

/-- Signature polynomials are given back exactly if no coefficient is above 2046, and keys exactly if no entry is; the
encoder of signatures gives back an accepted string exactly if its words are below `q`, and the encoder of keys exactly
if they are at most 2046; a key is replaced by its transform exactly if no entry is above 2046. -/
theorem codecs_iff {logn : ℕ} (x : SigPoly logn) (h : KeyPoly logn) (buf : List UInt8) (key : KeyPoly 9) :
    (CompRoundTrips x ↔ ∀ z ∈ x.coeffs, z.toInt < 2047) ∧
    (ModqRoundTrips h ↔ ∀ y ∈ h.coeffs, y.toNat < 2047) ∧
    (CompCanonical logn buf ↔ ¬ EpAccepted logn buf ∨ ∀ w ∈ epWords logn buf, w.toNat < 12289) ∧
    (ModqCanonical logn buf ↔ ¬ EpAccepted logn buf ∨ ∀ w ∈ epWords logn buf, w.toNat < 2047) ∧
    (PkReplaces key ↔ ∀ y ∈ key.coeffs, y.toNat < 2047) :=
  ⟨compRoundTrips_iff x, modqRoundTrips_iff h, compCanonical_iff logn buf, modqCanonical_iff logn buf,
    pkReplaces_iff key⟩

/-- The key with all entries 2047. -/
def key2047 : KeyPoly 9 where
  coeffs := List.replicate 512 2047
  length_eq := List.length_replicate
  bound y hy := by
    rw [List.eq_of_mem_replicate hy]
    decide

/-- The signature polynomial with all coefficients 2047. -/
def poly2047 : SigPoly 9 where
  coeffs := List.replicate 512 2047
  length_eq := List.length_replicate
  bound z hz := by
    rw [List.eq_of_mem_replicate hz]
    decide

/-- Coefficients and entries of 2047 are not given back, and the word `0xFFFF` is decoded to `-1`, which is encoded to
another word. -/
theorem codecs_2047 : ¬ CompRoundTrips poly2047 ∧ ¬ ModqRoundTrips key2047 ∧
    ¬ CompCanonical 9 (List.replicate 1024 0xFF) ∧ ¬ ModqCanonical 9 (List.replicate 1024 0xFF) ∧
    ¬ PkReplaces key2047 := by
  have hentry : (2047 : UInt16) ∈ key2047.coeffs := List.mem_replicate.2 ⟨by omega, rfl⟩
  have hcoeff : (2047 : Int16) ∈ poly2047.coeffs := List.mem_replicate.2 ⟨by omega, rfl⟩
  have hwords : epWords 9 (List.replicate 1024 0xFF) = List.replicate 512 0xFFFF := by decide +kernel
  have hmem : (0xFFFF : UInt16) ∈ epWords 9 (List.replicate 1024 0xFF) := by
    rw [hwords]
    exact List.mem_replicate.2 ⟨by omega, rfl⟩
  have hacc : EpAccepted 9 (List.replicate 1024 0xFF) := by
    refine ⟨by rw [List.length_replicate]; omega, fun w hw => ?_⟩
    rw [hwords] at hw
    rw [List.eq_of_mem_replicate hw]
    decide
  refine ⟨?_, ?_, ?_, ?_, ?_⟩
  · rw [compRoundTrips_iff]
    exact fun h => absurd (h _ hcoeff) (by decide)
  · rw [modqRoundTrips_iff]
    exact fun h => absurd (h _ hentry) (by decide)
  · rw [compCanonical_iff, or_iff_right (not_not.2 hacc)]
    exact fun h => absurd (h _ hmem) (by decide)
  · rw [modqCanonical_iff, or_iff_right (not_not.2 hacc)]
    exact fun h => absurd (h _ hmem) (by decide)
  · rw [pkReplaces_iff]
    exact fun h => absurd (h _ hentry) (by decide)

end DfVrf.Crypto
