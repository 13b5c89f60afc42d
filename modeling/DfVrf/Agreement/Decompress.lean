import DfVrf.Contracts.FalconEncodings
import DfVrf.Crypto.Codec

/-!
# The decoders of signatures on chain and in the C code

Both decoders keep the unread bits of the last byte in an accumulator, of 256 bits on chain and of 32 bits in C.  The C
decoder rejects a byte string for one of four reasons; the contract knows one of them, and a bound of its own on the
number of bytes.

* `decompressSig_agrees`: on what the C decoder accepts, and on what it rejects for a large coefficient, the contract
  does the same, up to the bound.
-/

namespace DfVrf

open InPlace Word Crypto Contracts

/-! ### The reasons of a rejection -/

/-- The returns of zero in `comp_decode`, in the order of the code. -/
inductive CompReject
  | endOfInput
  | tooLarge
  | negativeZero
  | unusedBits
  deriving DecidableEq

/-- `compDecodeUnary` with the reason of a rejection. -/
def compDecodeUnaryE (buf : List UInt8) : ℕ → Reader → UInt32 → Except CompReject (Reader × UInt32)
  | 0, _, _ => .error .tooLarge
  | fuel + 1, r, m =>
    if r.accLen = 0 ∧ r.v ≥ buf.length then .error .endOfInput
    else
      let r := if r.accLen = 0 then r.load buf 8 else r
      let r := { r with accLen := r.accLen - 1 }
      if (r.acc >>> UInt32.ofNat r.accLen) &&& 1 ≠ 0 then .ok (r, m)
      else
        let m := m + 128
        if m > 2047 then .error .tooLarge else compDecodeUnaryE buf fuel r m

/-- `compDecodeCoeff` with the reason of a rejection. -/
def compDecodeCoeffE (buf : List UInt8) (r : Reader) : Except CompReject (Int16 × Reader) :=
  if r.v ≥ buf.length then .error .endOfInput
  else
    let r := r.load buf r.accLen
    let b := r.acc >>> UInt32.ofNat r.accLen
    let s := b &&& 128
    let m := b &&& 127
    (compDecodeUnaryE buf 16 r m).bind fun t =>
      if s ≠ 0 ∧ t.2 = 0 then .error .negativeZero
      else .ok ((if s ≠ 0 then -t.2.toInt32 else t.2.toInt32).toInt16, t.1)

/-- `compDecodeLoop` with the reason of a rejection. -/
def compDecodeLoopE (buf : List UInt8) : ℕ → Reader → Except CompReject (List Int16 × Reader)
  | 0, r => .ok ([], r)
  | k + 1, r =>
    (compDecodeCoeffE buf r).bind fun t =>
      (compDecodeLoopE buf k t.2).map fun ts => (t.1 :: ts.1, ts.2)

/-- `comp_decode` with the reason of a rejection. -/
def compDecodeE (logn : ℕ) (buf : List UInt8) : Except CompReject (List Int16 × ℕ) :=
  (compDecodeLoopE buf (1 <<< logn) ⟨0, 0, 0⟩).bind fun t =>
    if t.2.acc &&& ((1 <<< UInt32.ofNat t.2.accLen) - 1) ≠ 0 then .error .unusedBits else .ok (t.1, t.2.v)

private theorem toOption_compDecodeUnaryE (buf : List UInt8) (fuel : ℕ) (r : Reader) (m : UInt32) :
    (compDecodeUnaryE buf fuel r m).toOption = compDecodeUnary buf fuel r m := by
  induction fuel generalizing r m with
  | zero => rfl
  | succ fuel ih =>
    unfold compDecodeUnaryE compDecodeUnary
    simp only [← ih, apply_ite Except.toOption]
    rfl

private theorem toOption_compDecodeCoeffE (buf : List UInt8) (r : Reader) :
    (compDecodeCoeffE buf r).toOption = compDecodeCoeff buf r := by
  unfold compDecodeCoeffE compDecodeCoeff
  simp only [← toOption_compDecodeUnaryE]
  split
  · rfl
  · cases compDecodeUnaryE buf 16 (r.load buf r.accLen)
        ((r.load buf r.accLen).acc >>> UInt32.ofNat (r.load buf r.accLen).accLen &&& 127) with
    | error e => rfl
    | ok t =>
      simp only [Except.bind, apply_ite Except.toOption]
      rfl

private theorem toOption_compDecodeLoopE (buf : List UInt8) (k : ℕ) (r : Reader) :
    (compDecodeLoopE buf k r).toOption = compDecodeLoop buf k r := by
  induction k generalizing r with
  | zero => rfl
  | succ k ih =>
    unfold compDecodeLoopE compDecodeLoop
    simp only [← ih, ← toOption_compDecodeCoeffE]
    cases compDecodeCoeffE buf r with
    | error e => rfl
    | ok t =>
      simp only [Except.bind, Except.toOption]
      cases compDecodeLoopE buf k t.2 with
      | error e => rfl
      | ok ts => rfl

/-- The decoder with reasons accepts what the decoder accepts. -/
private theorem toOption_compDecodeE (logn : ℕ) (buf : List UInt8) :
    (compDecodeE logn buf).toOption = compDecode logn buf := by
  unfold compDecodeE compDecode
  rw [← toOption_compDecodeLoopE]
  cases compDecodeLoopE buf (1 <<< logn) ⟨0, 0, 0⟩ with
  | error e => rfl
  | ok t =>
    simp only [Except.bind, apply_ite Except.toOption]
    rfl

/-! ### The two accumulators -/

/-- The contract is where the C decoder is: the accumulators have the same low bits. -/
structure Tracks (offset : ℕ) (r : Reader) (s : WordReader) : Prop where
  acc : s.acc.toNat % 2 ^ 32 = r.acc.toNat
  accLen : s.accLen = r.accLen
  v : s.v = offset + r.v

/-- What is known of the contract when the C decoder has a result: on a rejection, only that large coefficients are
rejected, too. -/
def Follows {α β : Type*} (R : α → β → Prop) : Except CompReject α → Except String β → Prop
  | .ok a, y => ∃ b, y = .ok b ∧ R a b
  | .error .tooLarge, y => y = .error "coeff to big"
  | .error _, _ => True

theorem Follows.bind {α α' β β' : Type*} {R : α → β → Prop} {R' : α' → β' → Prop} {x : Except CompReject α}
    {y : Except String β} {f : α → Except CompReject α'} {g : β → Except String β'} (h : Follows R x y)
    (hfg : ∀ a b, R a b → Follows R' (f a) (g b)) : Follows R' (x.bind f) (y.bind g) := by
  rcases x with e | a
  · rcases e with _ | _ | _ | _
    · trivial
    · obtain rfl : y = .error "coeff to big" := h
      exact rfl
    · trivial
    · trivial
  · obtain ⟨b, rfl, hab⟩ := h
    exact hfg a b hab

private theorem map_eq_bind {ε α β : Type*} (f : α → β) (x : Except ε α) : x.map f = x.bind fun a => .ok (f a) := by
  cases x <;> rfl

/-- Low bits do not depend on the bits that the smaller accumulator has lost. -/
private theorem low_bits_eq {a c k m : ℕ} (h : a % 2 ^ 32 = c) (hk : k ≤ 24) (hm : m < 2 ^ 8) :
    (a >>> k) &&& m = (c >>> k) &&& m := by
  apply Nat.eq_of_testBit_eq
  intro i
  rw [Nat.testBit_and, Nat.testBit_and, Nat.testBit_shiftRight, Nat.testBit_shiftRight, ← h, Nat.testBit_mod_two_pow]
  by_cases hi : i < 8
  · rw [decide_eq_true (show k + i < 32 by omega), Bool.true_and]
  · rw [Nat.testBit_lt_two_pow (lt_of_lt_of_le hm (Nat.pow_le_pow_right (by omega) (by omega))), Bool.and_false,
      Bool.and_false]

/-- Loading a byte into both accumulators. -/
private theorem load_mod {a c b : ℕ} (h : a % 2 ^ 32 = c) (hb : b < 2 ^ 8) :
    ((a <<< 8 % 2 ^ 256) ||| b) % 2 ^ 32 = (c <<< 8 % 2 ^ 32) ||| b := by
  apply Nat.eq_of_testBit_eq
  intro i
  simp only [Nat.testBit_mod_two_pow, Nat.testBit_or, Nat.testBit_shiftLeft, ← h]
  by_cases hi : i < 32
  · simp only [hi, show i < 256 by omega, show i - 8 < 32 by omega, decide_true, Bool.true_and]
  · rw [Nat.testBit_lt_two_pow (lt_of_lt_of_le hb (Nat.pow_le_pow_right (by omega) (show 8 ≤ i by omega)))]
    simp [hi]

section Simulation

variable {offset : ℕ} {buf : List UInt8} {mem : ℕ → UInt8}

theorem Tracks.bits {r : Reader} {s : WordReader} (h : Tracks offset r s) {k m : ℕ} (hk : k ≤ 24) (hm : m < 2 ^ 8) :
    ((s.acc >>> k) &&& BitVec.ofNat 256 m).toNat = ((r.acc >>> UInt32.ofNat k) &&& UInt32.ofNat m).toNat := by
  rw [BitVec.toNat_and, BitVec.toNat_ushiftRight, BitVec.toNat_ofNat, UInt32.toNat_and, UInt32.toNat_shiftRight,
    UInt32.toNat_ofNat', UInt32.toNat_ofNat', Nat.mod_eq_of_lt (show m < 2 ^ 256 by omega),
    Nat.mod_eq_of_lt (show m < 2 ^ 32 by omega), Nat.mod_eq_of_lt (show k < 2 ^ 32 by omega),
    Nat.mod_eq_of_lt (show k < 32 by omega)]
  exact low_bits_eq h.acc hk hm

theorem Tracks.bits_ne_zero_iff {r : Reader} {s : WordReader} (h : Tracks offset r s) {k m : ℕ} (hk : k ≤ 24)
    (hm : m < 2 ^ 8) :
    (s.acc >>> k) &&& BitVec.ofNat 256 m ≠ 0 ↔ (r.acc >>> UInt32.ofNat k) &&& UInt32.ofNat m ≠ 0 := by
  rw [Ne, Ne, ← BitVec.toNat_inj, ← UInt32.toNat_inj, h.bits hk hm]
  exact Iff.rfl

theorem Tracks.load {r : Reader} {s : WordReader} (h : Tracks offset r s) (hmem : mem (offset + r.v) = rd buf r.v)
    (k : ℕ) : Tracks offset (r.load buf k) (s.load mem k) where
  acc := by
    have hb := (rd buf r.v).toNat_lt
    simp only [Reader.load, WordReader.load, h.v, hmem]
    rw [BitVec.toNat_or, BitVec.toNat_shiftLeft, BitVec.toNat_ofNat, UInt32.toNat_or, UInt32.toNat_shiftLeft,
      UInt8.toNat_toUInt32, Nat.mod_eq_of_lt (show (rd buf r.v).toNat < 2 ^ 256 by omega)]
    exact load_mod h.acc hb
  accLen := rfl
  v := by
    simp only [Reader.load, WordReader.load, h.v]
    omega

/-- The unary loops. -/
private theorem decompressUnary_follows (hmem : ∀ i < buf.length, mem (offset + i) = rd buf i) {fuel : ℕ} {r : Reader}
    {s : WordReader} {m : UInt32} {w : Word} (h : Tracks offset r s) (ha : r.accLen ≤ 8) (hm : m.toNat ≤ 2047)
    (hw : w.toNat = m.toNat) :
    Follows (fun t t' => (Tracks offset t.1 t'.1 ∧ t.1.accLen ≤ 7) ∧ t'.2.toNat = t.2.toNat ∧ t.2.toNat ≤ 2047)
      (compDecodeUnaryE buf fuel r m) (decompressUnary mem fuel s w) := by
  induction fuel generalizing r s m w with
  | zero => exact rfl
  | succ fuel ih =>
    unfold compDecodeUnaryE decompressUnary
    by_cases hend : r.accLen = 0 ∧ r.v ≥ buf.length
    · rw [if_pos hend]
      trivial
    rw [if_neg hend, h.accLen]
    -- one bit at least is in both accumulators
    obtain ⟨r1, s1, hr1, hs1, h1, hpos, hle⟩ : ∃ r1 s1, (if r.accLen = 0 then r.load buf 8 else r) = r1 ∧
        (if r.accLen = 0 then s.load mem 8 else s) = s1 ∧ Tracks offset r1 s1 ∧ 0 < r1.accLen ∧ r1.accLen ≤ 8 := by
      by_cases h0 : r.accLen = 0
      · rw [if_pos h0, if_pos h0]
        refine ⟨_, _, rfl, rfl, h.load (hmem r.v (by omega)) 8, ?_, ?_⟩
        · exact Nat.succ_pos 7
        · exact le_rfl
      · rw [if_neg h0, if_neg h0]
        exact ⟨_, _, rfl, rfl, h, by omega, ha⟩
    rw [hr1, hs1]
    have hnext : Tracks offset { r1 with accLen := r1.accLen - 1 } { s1 with accLen := s1.accLen - 1 } :=
      ⟨h1.acc, by rw [h1.accLen], h1.v⟩
    have hbit : (s1.acc >>> (s1.accLen - 1)) &&& 1 ≠ 0 ↔ (r1.acc >>> UInt32.ofNat (r1.accLen - 1)) &&& 1 ≠ 0 := by
      rw [h1.accLen]
      exact h1.bits_ne_zero_iff (show r1.accLen - 1 ≤ 24 by omega) (show 1 < 2 ^ 8 by omega)
    simp only [hbit]
    by_cases hone : (r1.acc >>> UInt32.ofNat (r1.accLen - 1)) &&& 1 ≠ 0
    · rw [if_pos hone, if_pos hone]
      refine ⟨_, rfl, ⟨hnext, ?_⟩, hw, hm⟩
      exact Nat.sub_le_iff_le_add.2 hle
    · have hm' : (m + 128).toNat = m.toNat + 128 := toNat_add_128 hm
      have hw' : (w + 128).toNat = m.toNat + 128 := by
        rw [BitVec.toNat_add, hw, show (128 : Word).toNat = 128 from rfl]
        exact Nat.mod_eq_of_lt (by omega)
      have hlt : (w + 128 > 2047) ↔ m + 128 > 2047 := by
        rw [gt_iff_lt, gt_iff_lt, BitVec.lt_def, UInt32.lt_iff_toNat_lt, hw', hm']
        exact Iff.rfl
      rw [if_neg hone, if_neg hone, if_congr hlt rfl rfl]
      by_cases hbig : m + 128 > 2047
      · rw [if_pos hbig, if_pos hbig]
        exact rfl
      · rw [if_neg hbig, if_neg hbig]
        rw [gt_iff_lt, UInt32.lt_iff_toNat_lt, hm', show (2047 : UInt32).toNat = 2047 from rfl] at hbig
        exact ih hnext (show r1.accLen - 1 ≤ 8 by omega) (by omega) (by omega)

/-- A coefficient, reduced into `[0, q)`. -/
def reduceCoeff (x : Int16) : Word := BitVec.ofNat 256 (x.toInt % 12289).toNat

/-- The coefficient of a sign and an absolute value, on chain and in C. -/
private theorem reduceCoeff_eq {sign m : UInt32} {w : Word} (hsign : sign.toNat = 0 ∨ sign.toNat = 128)
    (hw : w.toNat = m.toNat)
    (hm : m.toNat ≤ 2047) (hzero : ¬ (sign ≠ 0 ∧ m = 0)) {sign' : Word} (hs : sign'.toNat = sign.toNat) :
    (if sign' = 0x80 then q - w else w) = reduceCoeff (if sign ≠ 0 then -m.toInt32 else m.toInt32).toInt16 := by
  have hint : m.toInt32.toInt = m.toNat := toInt_toInt32 (by omega)
  have hq : q.toNat = 12289 := rfl
  apply BitVec.eq_of_toNat_eq
  by_cases h : sign = 0
  · subst h
    have hne : sign' ≠ 0x80 := by
      rintro rfl
      exact absurd hs (by decide)
    rw [if_neg hne, if_neg (not_not.2 rfl), reduceCoeff, toInt_toInt16_of_le hint (by omega) (by omega), hw,
      BitVec.toNat_ofNat]
    omega
  · have hsign : sign.toNat = 128 := by
      rcases hsign with h0 | h128
      · exact absurd (UInt32.toNat_inj.1 h0) h
      · exact h128
    have heq : sign' = 0x80 := BitVec.eq_of_toNat_eq (hs.trans hsign)
    have hpos : m.toNat ≠ 0 := fun h0 => hzero ⟨h, UInt32.toNat_inj.1 h0⟩
    have hneg : (-m.toInt32).toInt = -(m.toNat : ℤ) := by
      rw [Int32.toInt_neg, hint]
      exact Int.bmod_eq_of_le (by omega) (by omega)
    rw [if_pos heq, if_pos h, reduceCoeff, toInt_toInt16_of_le hneg (by omega) (by omega), BitVec.toNat_ofNat,
      toNat_sub_of_le (by omega), hq, hw]
    omega

private theorem decompressCoeff_follows (hmem : ∀ i < buf.length, mem (offset + i) = rd buf i) {r : Reader}
    {s : WordReader} (h : Tracks offset r s) (ha : r.accLen ≤ 7) :
    Follows (fun t t' => t'.1 = reduceCoeff t.1 ∧ Tracks offset t.2 t'.2 ∧ t.2.accLen ≤ 7)
      (compDecodeCoeffE buf r) (decompressCoeff mem s) := by
  unfold compDecodeCoeffE decompressCoeff
  by_cases hend : r.v ≥ buf.length
  · rw [if_pos hend]
    trivial
  rw [if_neg hend]
  have h1 := h.load (hmem r.v (by omega)) r.accLen
  rw [h.accLen]
  have hle : (r.load buf r.accLen).accLen ≤ 7 := ha
  generalize r.load buf r.accLen = r1 at h1 hle ⊢
  generalize s.load mem r.accLen = s1 at h1 ⊢
  simp only [h1.accLen]
  have hs : (s1.acc >>> r1.accLen &&& 128).toNat = (r1.acc >>> UInt32.ofNat r1.accLen &&& 128).toNat :=
    h1.bits (by omega) (show 128 < 2 ^ 8 by omega)
  have hm : (s1.acc >>> r1.accLen &&& 127).toNat = (r1.acc >>> UInt32.ofNat r1.accLen &&& 127).toNat :=
    h1.bits (by omega) (show 127 < 2 ^ 8 by omega)
  have hsign : (r1.acc >>> UInt32.ofNat r1.accLen &&& 128).toNat = 0 ∨
      (r1.acc >>> UInt32.ofNat r1.accLen &&& 128).toNat = 128 := by
    rw [UInt32.toNat_and, show (128 : UInt32).toNat = 2 ^ 7 from rfl, Nat.and_two_pow]
    cases (r1.acc >>> UInt32.ofNat r1.accLen).toNat.testBit 7 <;> simp
  have hm127 : (r1.acc >>> UInt32.ofNat r1.accLen &&& 127).toNat ≤ 2047 := by
    rw [UInt32.toNat_and]
    exact le_trans Nat.and_le_right (by decide)
  rw [map_eq_bind]
  refine (decompressUnary_follows hmem h1 (by omega) hm127 hm).bind ?_
  rintro ⟨r2, m⟩ ⟨s2, w⟩ ⟨⟨h2, hle2⟩, hwm, hm⟩
  by_cases hzero : (r1.acc >>> UInt32.ofNat r1.accLen &&& 128) ≠ 0 ∧ m = 0
  · simp only [if_pos hzero]
    trivial
  · simp only [if_neg hzero]
    exact ⟨_, rfl, reduceCoeff_eq hsign hwm hm hzero hs, h2, hle2⟩

private theorem decompressLoop_follows {mem : ℕ → ℕ → UInt8}
    (hmem : ∀ u, ∀ i < buf.length, mem u (offset + i) = rd buf i)
    {k u : ℕ} {r : Reader} {s : WordReader} (h : Tracks offset r s) (ha : r.accLen ≤ 7) :
    Follows (fun t t' => t'.1 = t.1.map reduceCoeff ∧ Tracks offset t.2 t'.2) (compDecodeLoopE buf k r)
      (decompressLoop mem k u s) := by
  induction k generalizing u r s with
  | zero => exact ⟨_, rfl, rfl, h⟩
  | succ k ih =>
    unfold compDecodeLoopE decompressLoop
    refine (decompressCoeff_follows (hmem u) h ha).bind ?_
    rintro ⟨x, r'⟩ ⟨y, s'⟩ ⟨rfl, h', ha'⟩
    rw [map_eq_bind, map_eq_bind]
    refine (ih (u := u + 1) h' ha').bind ?_
    rintro ⟨xs, r''⟩ ⟨ys, s''⟩ ⟨rfl, h''⟩
    exact ⟨_, rfl, rfl, h''⟩

end Simulation

theorem compDecodeE_eq_ok_iff {logn : ℕ} {buf : List UInt8} {p : List Int16 × ℕ} :
    compDecodeE logn buf = .ok p ↔ compDecode logn buf = some p := by
  rw [← toOption_compDecodeE]
  cases compDecodeE logn buf <;> simp [Except.toOption]

/-- The loop of the contract on the buffer, where the C decoder is given the bytes from the offset on. -/
private theorem decompressLoop_buf (buf : List UInt8) (beyond : ℕ → ℕ → UInt8) (offset : ℕ) :
    Follows (fun t t' => t'.1 = t.1.map reduceCoeff ∧ Tracks offset t.2 t'.2)
      (compDecodeLoopE (buf.drop offset) (1 <<< 9) ⟨0, 0, 0⟩)
      (decompressLoop (fun u i => if i < buf.length then rd buf i else beyond u (i - buf.length)) n 0
        ⟨0, 0, offset⟩) := by
  refine decompressLoop_follows (fun u i hi => ?_) ⟨rfl, rfl, rfl⟩ (Nat.zero_le 7)
  rw [List.length_drop] at hi
  rw [if_pos (by omega), rd_drop]

/-- What the C decoder accepts, the contract decodes to the same coefficients, unless it is too long. -/
private theorem decompressSig_of_accepted {buf : List UInt8} {offset v : ℕ} {x : List Int16} (beyond : ℕ → ℕ → UInt8)
    (h : compDecode 9 (buf.drop offset) = some (x, v)) : decompressSig buf beyond offset =
      if v < 666 then .ok (x.map reduceCoeff) else .error "too long" := by
  have hloop := decompressLoop_buf buf beyond offset
  rw [← compDecodeE_eq_ok_iff, compDecodeE] at h
  rcases hdec : compDecodeLoopE (buf.drop offset) (1 <<< 9) ⟨0, 0, 0⟩ with e | ⟨x', r⟩
  · rw [hdec] at h
    exact absurd h (by simp [Except.bind])
  · rw [hdec] at h hloop
    obtain ⟨⟨ys, s⟩, hys, rfl, htracks⟩ := hloop
    simp only [Except.bind] at h
    split at h
    · exact absurd h (by simp)
    · obtain ⟨rfl, rfl⟩ := Prod.mk.inj (Except.ok.inj h)
      have hread : s.v = offset + r.v := htracks.v
      unfold decompressSig
      simp only [hys, Except.bind, maxInLen, ge_iff_le]
      by_cases hv : r.v < 666
      · rw [if_neg (by omega), if_pos hv]
      · rw [if_pos (by omega), if_neg hv]

/-- What the C decoder rejects for a large coefficient, the contract rejects for the same reason. -/
private theorem decompressSig_of_tooLarge {buf : List UInt8} {offset : ℕ} (beyond : ℕ → ℕ → UInt8)
    (h : compDecodeE 9 (buf.drop offset) = .error .tooLarge) :
    decompressSig buf beyond offset = .error "coeff to big" := by
  have hloop := decompressLoop_buf buf beyond offset
  rw [compDecodeE] at h
  rcases hdec : compDecodeLoopE (buf.drop offset) (1 <<< 9) ⟨0, 0, 0⟩ with e | t
  · rw [hdec] at h hloop
    obtain rfl : e = .tooLarge := Except.error.inj h
    have hrevert : decompressLoop _ n 0 ⟨0, 0, offset⟩ = .error "coeff to big" := hloop
    unfold decompressSig
    simp only [hrevert]
    rfl
  · rw [hdec] at h
    simp only [Except.bind] at h
    split at h
    · exact absurd h (by simp)
    · exact absurd h (by simp)

/-! ### Agreement -/

/-- The contract succeeds exactly when the C decoder does, and with the coefficients of the C decoder reduced into
`[0, q)`. -/
def DecodersAgree (buf : List UInt8) (beyond : ℕ → ℕ → UInt8) (offset : ℕ) : Prop :=
  ((∃ y, decompressSig buf beyond offset = .ok y) ↔ ∃ x v, compDecode 9 (buf.drop offset) = some (x, v)) ∧
    ∀ x v y, compDecode 9 (buf.drop offset) = some (x, v) → decompressSig buf beyond offset = .ok y →
      y = x.map reduceCoeff

/-- Eight coefficients of 256, in 88 bits. -/
def eightCoeffs : List UInt8 := [0x00, 0x20, 0x04, 0x00, 0x80, 0x10, 0x02, 0x00, 0x40, 0x08, 0x01]

/-- The encoding of 512 coefficients of 256, in 704 bytes. -/
def longEncoding : List UInt8 := (List.replicate 64 eightCoeffs).flatten

/-- Repeated bytes encode repeated coefficients. -/
private theorem ofBytes_replicate_flatten {bs : List UInt8} {xs : List Int16}
    (h : Bits.ofBytes bs = xs.flatMap encodeCoeff)
    (k : ℕ) : Bits.ofBytes (List.replicate k bs).flatten = (List.replicate k xs).flatten.flatMap encodeCoeff := by
  induction k with
  | zero => rfl
  | succ k ih =>
    rw [List.replicate_succ, List.replicate_succ, List.flatten_cons, List.flatten_cons, Bits.ofBytes_append,
      List.flatMap_append, h, ih]

/-- The C decoder accepts the long encoding. -/
private theorem compDecode_longEncoding : compDecode 9 longEncoding = some (List.replicate 512 256, 704) := by
  have height : Bits.ofBytes eightCoeffs = (List.replicate 8 (256 : Int16)).flatMap encodeCoeff := by decide
  have hbits := ofBytes_replicate_flatten height 64
  rw [List.flatten_replicate_replicate] at hbits
  have hx : ∀ x ∈ List.replicate 512 (256 : Int16), x.toInt.natAbs ≤ 2047 := by
    intro x hx
    rw [List.eq_of_mem_replicate hx]
    decide
  have hlen : longEncoding.length = 704 := by
    rw [longEncoding, List.length_flatten, List.map_replicate, List.sum_replicate]
    rfl
  have hdec : compDecode 9 longEncoding = some (List.replicate (64 * 8) 256, longEncoding.length) :=
    compDecode_complete List.length_replicate hx (show 0 < 8 by omega) (hbits.trans (List.append_nil _).symm)
  rwa [hlen] at hdec

/-- The contract reverts on an encoding of 704 bytes that the C decoder accepts. -/
theorem decodersAgree_longEncoding : ¬ DecodersAgree longEncoding (fun _ _ => 0) 0 := by
  rintro ⟨hiff, -⟩
  have hacc := compDecode_longEncoding
  rw [← @List.drop_zero _ longEncoding] at hacc
  obtain ⟨y, hy⟩ := hiff.2 ⟨_, _, hacc⟩
  rw [decompressSig_of_accepted _ hacc, if_neg (by omega)] at hy
  exact nomatch hy

/-- Unless the C decoder rejects a byte string for a negative zero, for unused bits or for its end, the contract
succeeds exactly when the C decoder accepts fewer than 666 bytes, with the same coefficients reduced into `[0, q)`; it reverts
with a message of its own on long encodings, and on coefficients that are too large. -/
theorem decompressSig_agrees (buf : List UInt8) (beyond : ℕ → ℕ → UInt8) (offset : ℕ) :
    (∀ x v, compDecode 9 (buf.drop offset) = some (x, v) → decompressSig buf beyond offset =
      if v < 666 then .ok (x.map reduceCoeff) else .error "too long") ∧
    (compDecodeE 9 (buf.drop offset) = .error .tooLarge → decompressSig buf beyond offset = .error "coeff to big") :=
  ⟨fun _ _ h => decompressSig_of_accepted beyond h, decompressSig_of_tooLarge beyond⟩

end DfVrf
