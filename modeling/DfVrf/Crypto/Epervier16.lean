import DfVrf.Crypto.ConstantTime
import DfVrf.Crypto.Epervier
import DfVrf.Crypto.SignDyn

/-!
# Epervier messages (`epervier16.c`)

The signer assembles a message of the length of the signature, the nonce, the message, the two polynomials with 16 bits
a coefficient and the hint.  `zknox_crypto_sign_open_epervier` recovers the public key from it.

* `signOpenEpervier_eq`: no message is ever opened, since `EPERVIER_SIG_BODY_SIZE` is 1026 and the decoder reads 1024
  bytes.
* `signEpervier_not_opened`: in particular none that the signer returns.
-/

namespace DfVrf.Crypto

open InPlace Negacyclic

def epervierLogn : ℕ := 9

/-- `EPERVIER_N`. -/
def epervierN : ℕ := 1 <<< epervierLogn

def epervierPubkeySize : ℕ := 1025

def epervierNonceSize : ℕ := 40

def epervierSigBodySize : ℕ := 1026

/-! ### Coefficients with 16 bits -/

/-- The centring of a decoded value, which the decoders apply from 2047 on. -/
def epCoeff (w : UInt32) : Option Int16 :=
  let w := w.toUInt16.toInt16
  if w ≥ 12289 then none else some (w.toInt32 - ((12289 : Int32) &&& ~~~((w.toInt32 - 2047) >>> (31 : Int32)))).toInt16

/-- What `ep_comp_encode16` makes of a coefficient. -/
def epCode (z : Int16) : UInt32 := (z.toInt32 + ((z.toInt32 >>> (31 : Int32)) &&& (12289 : Int32))).toUInt32

/-- `ep_modq_encode16`, with an output buffer of `maxOutLen` bytes; `none` where the code returns zero. -/
def epModqEncode16 (maxOutLen : ℕ) (x : List UInt16) (logn : ℕ) : Option (List UInt8) :=
  let n := 1 <<< logn
  if x.any (fun y => y ≥ 12289) then none
  else
    let outLen := ((n * 16) + 7) >>> 3
    if outLen > maxOutLen then none else some (fixedEncode 16 (fun y => y.toUInt32) x)

/-- `ep_modq_decode16`. -/
def epModqDecode16 (logn : ℕ) (buf : List UInt8) : Option (List UInt16 × ℕ) :=
  fixedDecode logn 16 (fun w => (epCoeff w).map Int16.toUInt16) buf

/-- `ep_comp_encode16`. -/
def epCompEncode16 (maxOutLen : ℕ) (x : List Int16) (logn : ℕ) : Option (List UInt8) :=
  let n := 1 <<< logn
  if x.any (fun z => z ≥ 12289 || z ≤ -12289) then none
  else
    let outLen := ((n * 16) + 7) >>> 3
    if outLen > maxOutLen then none
    else some (fixedEncode 16 epCode x)

/-- `ep_comp_decode16`. -/
def epCompDecode16 (logn : ℕ) (buf : List UInt8) : Option (List Int16 × ℕ) := fixedDecode logn 16 epCoeff buf

/-! ### Keys and messages -/

/-- `zknox_pk_epervier`: the key with its polynomial transformed. -/
def pkEpervier (pk : ByteVec 1025) : Except ℤ (List UInt8) :=
  if rd pk.1 0 ≠ UInt8.ofNat (0x00 + epervierLogn) then .error (-1)
  else
    match epModqDecode16 epervierLogn (pk.1.drop 1) with
    | none => .error (-1)
    | some (h, v) =>
      if v ≠ epervierPubkeySize - 1 then .error (-1)
      else
        match epModqEncode16 (epervierPubkeySize - 1) (mqNtt h epervierLogn) epervierLogn with
        | none => .error (-1)
        | some out =>
          if out.length ≠ epervierPubkeySize - 1 then .error (-1)
          else .ok (UInt8.ofNat (0x00 + epervierLogn) :: out)

/-- The loop of the signer, which samples until `s2` is invertible, for at most `fuel` rounds.  The sampler returns the
two polynomials and its generator. -/
def signLoopEpervier (signDyn : Shake256 → PrivatePolys → List UInt16 → ℕ →
    Option ((List Int16 × List Int16) × Shake256)) (polys : PrivatePolys) (hm : List UInt16) :
    ℕ → Shake256 → Option (List Int16 × List Int16)
  | 0, _ => none
  | fuel + 1, sc =>
    match signDyn sc polys hm epervierLogn with
    | none => none
    | some ((s1, s2), sc) =>
      if isInvertible s2 epervierLogn = 0 then signLoopEpervier signDyn polys hm fuel sc else some (s1, s2)

/-- What `zknox_crypto_sign_epervier` assembles of the nonce, the message and the sampled polynomials. -/
def assembleEpervier (nonce m : List UInt8) (s1 s2 : List Int16) : Except ℤ (List UInt8) :=
  let header := UInt8.ofNat (0x20 + epervierLogn)
  match epCompEncode16 epervierSigBodySize s1 epervierLogn with
  | none => .error (-1)
  | some out1 =>
    let sigLen := out1.length + 1
    match epCompEncode16 epervierSigBodySize s2 epervierLogn with
    | none => .error (-1)
    | some out2 =>
      let esig := (header :: out1) ++ (header :: out2)
      let sigLen := sigLen + out2.length + 1
      let hint := hintEpervier s2 epervierLogn
      let sigLen := sigLen + 2
      .ok ([UInt8.ofNat (sigLen >>> 8), UInt8.ofNat sigLen] ++ nonce ++ m ++ esig.take (sigLen - 2) ++
        [(hint >>> 8).toUInt8, hint.toUInt8])

/-- `zknox_crypto_sign_epervier`, with the results of the two calls of `get_seed`; `none` means that the sampling of the
challenge or of the signature has not ended. -/
def signEpervier (perm : Lanes → Lanes) (signDyn : Shake256 → PrivatePolys → List UInt16 → ℕ →
    Option ((List Int16 × List Int16) × Shake256)) (fuel : ℕ) (nonce : Option (ByteVec 40))
    (seed : Option (ByteVec 48)) (m : List UInt8) (sk : ByteVec 1281) : Option (Except ℤ (List UInt8)) :=
  if rd sk.1 0 ≠ UInt8.ofNat (0x50 + epervierLogn) then some (.error (-1))
  else
    match decodeSignKey epervierLogn sk.1 with
    | .error _ => some (.error (-1))
    | .ok polys =>
      match nonce with
      | none => some (.error (-1))
      | some nonce =>
        match hashToPointVartime perm fuel (Shake256.seeded perm [nonce.1, m]) epervierLogn with
        | none => none
        | some hm =>
          match seed with
          | none => some (.error (-1))
          | some seed =>
            match signLoopEpervier signDyn polys hm fuel (Shake256.seeded perm [seed.1]) with
            | none => none
            | some (s1, s2) => some (assembleEpervier nonce.1 m s1 s2)

/-- The `k` bytes at the address `i`. -/
def bytesAt (mem : ℕ → UInt8) (i k : ℕ) : List UInt8 := (List.range k).map fun j => mem (i + j)

/-- `zknox_crypto_sign_open_epervier`: the message; the memory behind the signed message is `beyond`. -/
def signOpenEpervier (perm : Lanes → Lanes) (fuel : ℕ) (beyond : ℕ → UInt8) (sm : List UInt8) (pk : ByteVec 1025) :
    Option (Except ℤ (List UInt8)) :=
  let mem := memory sm beyond
  let smlen := sm.length
  let header := UInt8.ofNat (0x20 + epervierLogn)
  if rd pk.1 0 ≠ UInt8.ofNat (0x00 + epervierLogn) then some (.error (-1))
  else
    match epModqDecode16 epervierLogn (pk.1.drop 1) with
    | none => some (.error (-1))
    | some (h, v) =>
      if v ≠ epervierPubkeySize - 1 then some (.error (-1))
      else if smlen < 2 + epervierNonceSize then some (.error (-1))
      else
        let sigLen := ((mem 0).toNat <<< 8) ||| (mem 1).toNat
        if sigLen > smlen - 2 - epervierNonceSize then some (.error (-1))
        else
          let msgLen := smlen - 2 - epervierNonceSize - sigLen
          let esig := 2 + epervierNonceSize + msgLen
          if sigLen < 1 ∨ mem esig ≠ header ∨ mem (esig + 1025) ≠ header then some (.error (-1))
          else
            match epCompDecode16 epervierLogn (bytesAt mem (esig + 1) epervierSigBodySize) with
            | none => some (.error (-1))
            | some (s1, v) =>
              if v ≠ epervierSigBodySize then some (.error (-1))
              else
                match epCompDecode16 epervierLogn
                    (bytesAt mem (esig + 1 + epervierSigBodySize + 1) epervierSigBodySize) with
                | none => some (.error (-1))
                | some (s2, v) =>
                  if v ≠ epervierSigBodySize then some (.error (-1))
                  else
                    match hashToPointVartime perm fuel
                        (Shake256.seeded perm [bytesAt mem 2 (epervierNonceSize + msgLen)]) epervierLogn with
                    | none => none
                    | some hm =>
                      let r := verifyRecoverEpervier hm s1 s2 epervierLogn
                      if r.1 = 0 then some (.error (-1))
                      else if (List.range epervierN).any (fun i => rd h i ≠ rd r.2 i) then some (.error (-1))
                      else some (.ok (bytesAt mem (2 + epervierNonceSize) msgLen))

/-! ### Lengths -/

/-- A decoder reads the bytes of all coefficients. -/
theorem fixedDecode_snd {β : Type*} {logn bits : ℕ} {coeff : UInt32 → Option β} {buf : List UInt8} {x : List β}
    {v : ℕ} (h : fixedDecode logn bits coeff buf = some (x, v)) : v = (2 ^ logn * bits + 7) / 8 := by
  rw [fixedDecode] at h
  split_ifs at h
  split at h
  · simp at h
  · split_ifs at h
    obtain ⟨-, rfl⟩ := Prod.mk.inj (Option.some.inj h)
    rw [Nat.one_shiftLeft, Nat.shiftRight_eq_div_pow]

/-- The decoder of signatures never reads `EPERVIER_SIG_BODY_SIZE` bytes. -/
theorem epCompDecode16_snd {buf : List UInt8} {x : List Int16} {v : ℕ}
    (h : epCompDecode16 epervierLogn buf = some (x, v)) : v = 1024 := fixedDecode_snd h

/-! ### Opening -/

/-- Every message is rejected, by the test of the number of bytes of `s1` at the latest. -/
theorem signOpenEpervier_eq (perm : Lanes → Lanes) (fuel : ℕ) (beyond : ℕ → UInt8) (sm : List UInt8)
    (pk : ByteVec 1025) : signOpenEpervier perm fuel beyond sm pk = some (.error (-1)) := by
  simp only [signOpenEpervier, ite_eq_left_iff]
  intro _
  cases epModqDecode16 epervierLogn (pk.1.drop 1) with
  | none => rfl
  | some r =>
    simp only [ite_eq_left_iff]
    intro _ _ _ _
    split
    · rfl
    · rename_i s1 v hdec
      rw [if_pos]
      rw [epCompDecode16_snd hdec]
      decide

/-- The coefficients that the encoder of signatures takes. -/
def EpRange (x : Int16) : Prop := -12289 < x.toInt ∧ x.toInt < 12289

/-- The encoder of signatures only fails on a coefficient out of range or a small buffer. -/
private theorem epCompEncode16_eq {maxOutLen logn : ℕ} {xs : List Int16} (hx : ∀ x ∈ xs, EpRange x)
    (hroom : (2 ^ logn * 16 + 7) / 8 ≤ maxOutLen) :
    epCompEncode16 maxOutLen xs logn = some (fixedEncode 16 epCode xs) := by
  have hany : ¬ xs.any (fun z => z ≥ 12289 || z ≤ -12289) = true := by
    rw [Bool.not_eq_true, List.any_eq_false]
    intro z hz
    obtain ⟨h1, h2⟩ := hx z hz
    have hq : (12289 : Int16).toInt = 12289 := rfl
    have hq' : (-12289 : Int16).toInt = -12289 := rfl
    rw [Bool.not_eq_true, Bool.or_eq_false_iff, decide_eq_false_iff_not, decide_eq_false_iff_not, ge_iff_le,
      Int16.le_iff_toInt_le, Int16.le_iff_toInt_le, hq, hq']
    omega
  have hlen : ¬ ((1 <<< logn) * 16 + 7) >>> 3 > maxOutLen := by
    rw [Nat.shiftRight_eq_div_pow, Nat.one_shiftLeft]
    omega
  rw [epCompEncode16]
  simp only
  rw [if_neg hany, if_neg hlen]

/-- The layout of a message: the length 2052 of the signature, the nonce, the message, the polynomials behind their
headers, and the hint. -/
private theorem assembleEpervier_eq (nonce m : List UInt8) {s1 s2 : List Int16} (hl1 : s1.length = 512)
    (hl2 : s2.length = 512) (h1 : ∀ x ∈ s1, EpRange x) (h2 : ∀ x ∈ s2, EpRange x) :
    assembleEpervier nonce m s1 s2 = .ok (([8, 4] : List UInt8) ++ nonce ++ m ++
      ((0x29 :: fixedEncode 16 epCode s1) ++ (0x29 :: fixedEncode 16 epCode s2)) ++
      [(hintEpervier s2 9 >>> 8).toUInt8, (hintEpervier s2 9).toUInt8]) := by
  have hlen : ∀ {s : List Int16}, s.length = 512 → (fixedEncode 16 epCode s).length = 1024 := by
    intro s hl
    rw [length_fixedEncode _ le_rfl, hl]
  have henc : ∀ {s : List Int16}, (∀ x ∈ s, EpRange x) →
      epCompEncode16 epervierSigBodySize s epervierLogn = some (fixedEncode 16 epCode s) := by
    intro s hs
    exact epCompEncode16_eq hs (by decide)
  have htake : ∀ l : List UInt8, l.length = 2050 → l.take (1024 + 1 + 1024 + 1 + 2 - 2) = l := by
    intro l hl
    rw [List.take_of_length_le (by omega)]
  simp only [assembleEpervier, henc h1, henc h2, hlen hl1, hlen hl2]
  rw [htake _ (by simp [hlen hl1, hlen hl2])]
  rfl

/-- No message that the signer assembles is opened: the signature passes both encoders, and
`zknox_crypto_sign_open_epervier` returns `-1` whatever the key is. -/
theorem signOpenEpervier_assembled (nonce : ByteVec 40) (m : List UInt8) {s1 s2 : List Int16} (hl1 : s1.length = 512)
    (hl2 : s2.length = 512) (h1 : ∀ x ∈ s1, EpRange x) (h2 : ∀ x ∈ s2, EpRange x) :
    ∃ sm, assembleEpervier nonce.1 m s1 s2 = .ok sm ∧
      ∀ perm fuel beyond pk, signOpenEpervier perm fuel beyond sm pk = some (.error (-1)) :=
  ⟨_, assembleEpervier_eq nonce.1 m hl1 hl2 h1 h2, fun perm fuel beyond pk =>
    signOpenEpervier_eq perm fuel beyond _ pk⟩

/-- The loop of the signer ends with an invertible `s2`. -/
private theorem isInvertible_of_signLoop {signDyn : Shake256 → PrivatePolys → List UInt16 → ℕ →
    Option ((List Int16 × List Int16) × Shake256)} {polys : PrivatePolys} {hm : List UInt16} {fuel : ℕ}
    {sc : Shake256} {s1 s2 : List Int16} (h : signLoopEpervier signDyn polys hm fuel sc = some (s1, s2)) :
    isInvertible s2 9 ≠ 0 := by
  induction fuel generalizing sc with
  | zero => simp [signLoopEpervier] at h
  | succ fuel ih =>
    rw [signLoopEpervier] at h
    split at h
    · simp at h
    · split_ifs at h with h0
      · exact ih h
      · obtain ⟨-, rfl⟩ := Prod.mk.inj (Option.some.inj h)
        exact h0

/-- What the signer returns was assembled of an invertible `s2`. -/
private theorem signEpervier_eq_ok {perm : Lanes → Lanes} {signDyn : Shake256 → PrivatePolys → List UInt16 → ℕ →
    Option ((List Int16 × List Int16) × Shake256)} {fuel : ℕ} {nonce : Option (ByteVec 40)}
    {seed : Option (ByteVec 48)} {m sm : List UInt8} {sk : ByteVec 1281}
    (h : signEpervier perm signDyn fuel nonce seed m sk = some (.ok sm)) :
    ∃ nonce' s1 s2, nonce = some nonce' ∧ isInvertible s2 9 ≠ 0 ∧ assembleEpervier nonce'.1 m s1 s2 = .ok sm := by
  rw [signEpervier] at h
  split_ifs at h
  · simp at h
  split at h
  · simp at h
  split at h
  · simp at h
  rename_i nonce'
  split at h
  · simp at h
  split at h
  · simp at h
  split at h
  · simp at h
  rename_i s1 s2 hloop
  exact ⟨nonce', s1, s2, rfl, isInvertible_of_signLoop hloop, Option.some.inj h⟩

/-- A message that the signer returns is not opened under any key. -/
theorem signEpervier_not_opened {perm : Lanes → Lanes} {signDyn : Shake256 → PrivatePolys → List UInt16 → ℕ →
    Option ((List Int16 × List Int16) × Shake256)} {fuel : ℕ} {nonce : Option (ByteVec 40)}
    {seed : Option (ByteVec 48)} {m sm : List UInt8} {sk : ByteVec 1281}
    (h : signEpervier perm signDyn fuel nonce seed m sk = some (.ok sm)) :
    (∃ nonce' s1 s2, nonce = some nonce' ∧ isInvertible s2 9 ≠ 0 ∧ assembleEpervier nonce'.1 m s1 s2 = .ok sm) ∧
      ∀ perm' fuel' beyond pk, signOpenEpervier perm' fuel' beyond sm pk = some (.error (-1)) :=
  ⟨signEpervier_eq_ok h, fun perm' fuel' beyond pk => signOpenEpervier_eq perm' fuel' beyond sm pk⟩

/-! ### A message that is not opened -/

/-- The public key of the zero polynomial. -/
def epervierZeroKey : ByteVec 1025 := ⟨0x09 :: List.replicate 1024 0, by rw [List.length_cons, List.length_replicate]⟩

theorem epModqDecode16_zero : epModqDecode16 9 (List.replicate 1024 0) = some (List.replicate 512 0, 1024) := by
  have hdec : Decodes 16 (fun y : UInt16 => y.toUInt32) (fun w => (epCoeff w).map Int16.toUInt16) 0 := by
    intro w hw
    obtain rfl : w = 0 := UInt32.toNat_inj.1 hw
    rfl
  have hbits : codeBits 16 (fun y : UInt16 => y.toUInt32) 0 = List.replicate 16 false := rfl
  have hw : Bits.ofBytes (List.replicate 1024 0) =
      (List.replicate 512 0).flatMap (codeBits 16 (fun y : UInt16 => y.toUInt32)) ++ List.replicate 0 false := by
    rw [Bits.ofBytes_replicate_zero, List.flatMap_replicate, hbits, List.flatten_replicate_replicate,
      List.replicate_zero, List.append_nil]
  have h : fixedDecode 9 16 (fun w => (epCoeff w).map Int16.toUInt16) (List.replicate 1024 0 ++ []) =
      some (List.replicate 512 0, (List.replicate 1024 (0 : UInt8)).length) :=
    fixedDecode_complete (by omega) le_rfl List.length_replicate (fun x hx => List.eq_of_mem_replicate hx ▸ hdec)
      (by omega) hw
  rwa [List.append_nil, List.length_replicate] at h

private theorem replicate_zero_rep : Rep 512 (List.replicate 512 0) (fun _ => 0) :=
  Represents.replicate (show (0 : UInt16).toUInt32.toNat < 12289 by decide)

private theorem rd_zeroCoeffs (n e : ℕ) : rd (List.replicate n (0 : Int16)) e = 0 := by
  rw [rd, List.getD_eq_getElem?_getD]
  exact List.getElem?_getD_replicate_default_eq 0 n e

/-- The polynomial `1`. -/
def oneCoeffs : List Int16 := 1 :: List.replicate 511 0

private theorem rd_oneCoeffs (e : ℕ) : rd oneCoeffs e = if e = 0 then 1 else 0 := by
  cases e with
  | zero => rfl
  | succ e => exact rd_zeroCoeffs 511 e

private theorem oneCoeffs_rep : RepSigned 512 oneCoeffs (fun e => if e = 0 then 1 else 0) where
  length := by rw [oneCoeffs, List.length_cons, List.length_replicate]
  ok_rd e _ := by
    rw [rd_oneCoeffs]
    split <;> decide
  val_rd e _ := by
    rw [rd_oneCoeffs]
    split <;> decide

/-- The signature `(0, 1)` for the zero challenge recovers the zero key. -/
private theorem verifyRecoverEpervier_one :
    (verifyRecoverEpervier (List.replicate 512 0) (List.replicate 512 0) oneCoeffs 9).1 = 1 ∧
    (verifyRecoverEpervier (List.replicate 512 0) (List.replicate 512 0) oneCoeffs 9).2 = List.replicate 512 0 := by
  have htable := isTable_twiddle (by omega : 9 ≤ 10)
  have hne : ∀ e < 2 ^ 9, fwd twiddle 9 9 (fun e => if e = 0 then (1 : Zq) else 0) e ≠ 0 := by
    intro e he
    rw [fwd_one htable he]
    exact one_ne_zero
  constructor
  · refine (verifyRecoverEpervier_iff (by omega : 9 ≤ 10) _ _ oneCoeffs_rep).2 ⟨hne, ?_⟩
    have hle := Finset.sum_le_card_nsmul (Finset.range (2 ^ 9))
      (fun u => sq (rd (List.replicate 512 0) u) + sq (rd oneCoeffs u)) 1 fun u _ => ?_
    · rw [Finset.card_range] at hle
      exact le_trans hle (by decide)
    · rw [rd_zeroCoeffs, rd_oneCoeffs]
      split <;> decide
  · have hzero : RepSigned 512 (List.replicate 512 0) (fun _ => (0 : Zq)) := Represents.replicate (by decide)
    have hrep := verifyRecoverEpervier_rep (by omega : 9 ≤ 10) (h := fun _ => 0) replicate_zero_rep hzero oneCoeffs_rep
      hne (fun e _ => by rw [mulMod_comm, mulMod_zero_left, sub_zero])
    exact Rep.unique hrep (replicate_zero_rep.congr fun e he => (fwd_zero htable he).symm)

private theorem epRange_zero : ∀ x ∈ List.replicate 512 (0 : Int16), EpRange x := by
  intro x hx
  rw [List.eq_of_mem_replicate hx]
  exact ⟨by decide, by decide⟩

private theorem epRange_oneCoeffs : ∀ x ∈ oneCoeffs, EpRange x := by
  intro x hx
  obtain rfl | hx := List.mem_cons.1 hx
  · exact ⟨by decide, by decide⟩
  · rw [List.eq_of_mem_replicate hx]
    exact ⟨by decide, by decide⟩

theorem signOpenEpervier_assembled_one : ∃ sm,
    assembleEpervier (List.replicate 40 7) [] (List.replicate 512 0) oneCoeffs = .ok sm ∧
      ∀ perm fuel beyond pk, signOpenEpervier perm fuel beyond sm pk = some (.error (-1)) :=
  signOpenEpervier_assembled ⟨List.replicate 40 7, List.length_replicate⟩ [] List.length_replicate
    oneCoeffs_rep.length epRange_zero epRange_oneCoeffs

/-- The signature `(0, 1)` for the zero challenge passes the recovery under the zero key, but the message is not
opened. -/
theorem signOpenEpervier_one : ∃ fuel sm,
    hashToPointVartime zeroPerm fuel (Shake256.seeded zeroPerm [List.replicate 40 7, []]) 9 =
      some (List.replicate 512 0) ∧
    (verifyRecoverEpervier (List.replicate 512 0) (List.replicate 512 0) oneCoeffs 9).1 = 1 ∧
    epModqDecode16 9 (epervierZeroKey.1.drop 1) =
      some ((verifyRecoverEpervier (List.replicate 512 0) (List.replicate 512 0) oneCoeffs 9).2, 1024) ∧
    assembleEpervier (List.replicate 40 7) [] (List.replicate 512 0) oneCoeffs = .ok sm ∧
    signOpenEpervier zeroPerm fuel (fun _ => 0) sm epervierZeroKey ≠ some (.ok []) := by
  obtain ⟨fuel, hp⟩ := hashToPointVartime_zeroPerm [List.replicate 40 7, []]
  refine ⟨fuel, _, hp, verifyRecoverEpervier_one.1, ?_,
    assembleEpervier_eq (List.replicate 40 7) [] List.length_replicate oneCoeffs_rep.length epRange_zero
      epRange_oneCoeffs, ?_⟩
  · rw [verifyRecoverEpervier_one.2]
    exact epModqDecode16_zero
  · rw [signOpenEpervier_eq]
    simp

end DfVrf.Crypto
