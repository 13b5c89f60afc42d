import DfVrf.Crypto.NewKeygen
import DfVrf.Crypto.SignDyn

/-!
# Keys in the interface (`falcon.c`)

`falcon_keygen_make` encodes the private key that `Zf(new_keygen)` returns and the public key that it recomputes.
`falcon_make_public` recomputes the public key from the encoded private key.

* `decodeSignKey_iff`: a private key is decoded exactly if it is the encoding of what is decoded.
* `falconKeygenMake_spec`: no internal error occurs, and both keys can be decoded to a complete key.
* `extractBytes_shakeRng`: a context in output mode is read as a stream.
-/

namespace DfVrf.Crypto

open InPlace Negacyclic

/-! ### The code -/

def errBadArg : ℤ := -5
def errInternal : ℤ := -6

/-- `FALCON_TMPSIZE_KEYGEN`. -/
def tmpSizeKeygen (logn : ℕ) : ℕ := (if logn ≤ 3 then 272 else 28 <<< logn) + (3 <<< logn) + 7

/-- `FALCON_TMPSIZE_MAKEPUB`. -/
def tmpSizeMakePub (logn : ℕ) : ℕ := (6 <<< logn) + 1

/-- The encoding of the private key in `falcon_keygen_make`. -/
def encodePrivkey (logn : ℕ) (f g F : List Int8) : Except ℤ (List UInt8) :=
  let skLen := privkeySize logn
  let u := 1
  match trimI8Encode (skLen - u) f logn (rd maxFgBits logn) with
  | none => .error errInternal
  | some fBytes =>
    let u := u + fBytes.length
    match trimI8Encode (skLen - u) g logn (rd maxFgBits logn) with
    | none => .error errInternal
    | some gBytes =>
      let u := u + gBytes.length
      match trimI8Encode (skLen - u) F logn (rd maxFGBits logn) with
      | none => .error errInternal
      | some FBytes =>
        let u := u + FBytes.length
        if u ≠ skLen then .error errInternal
        else .ok (UInt8.ofNat (0x50 + logn) :: (fBytes ++ (gBytes ++ FBytes)))

/-- The recomputation and the encoding of the public key, with the error `e` if `f` is not invertible. -/
def encodePubkey (logn : ℕ) (f g : List Int8) (e : ℤ) : Except ℤ (List UInt8) :=
  match computePublic f g logn with
  | none => .error e
  | some h =>
    let pkLen := pubkeySize logn
    match modqEncode (pkLen - 1) h logn with
    | none => .error errInternal
    | some body => if body.length ≠ pkLen - 1 then .error errInternal else .ok (UInt8.ofNat logn :: body)

/-- `falcon_keygen_make`, with the length of the buffer for the public key, if there is one; `none` means that the
generation has not ended. -/
def falconKeygenMake (env : KeygenEnv) (fuel iters : ℕ) (rng : Rng) (logn privkeyLen : ℕ) (pubkeyLen : Option ℕ)
    (tmpLen : ℕ) : Option (Except ℤ (List UInt8 × Option (List UInt8))) :=
  if logn < 1 ∨ logn > 10 then some (.error errBadArg)
  else if privkeyLen < privkeySize logn ∨ pubkeyLen.any (· < pubkeySize logn) ∨ tmpLen < tmpSizeKeygen logn then
    some (.error errSize)
  else
    match (newKeygen env logn fuel iters rng).2 with
    | none => none
    | some key =>
      match encodePrivkey logn key.f key.g key.F with
      | .error r => some (.error r)
      | .ok sk =>
        match pubkeyLen with
        | none => some (.ok (sk, none))
        | some _ =>
          match encodePubkey logn key.f key.g errInternal with
          | .error r => some (.error r)
          | .ok pk => some (.ok (sk, some pk))

/-- `falcon_make_public`. -/
def falconMakePublic (pubkeyLen : ℕ) (privkey : List UInt8) (tmpLen : ℕ) : Except ℤ (List UInt8) :=
  if privkey.length = 0 then .error errFormat
  else
    let sk := privkey
    if rd sk 0 &&& 0xF0 ≠ 0x50 then .error errFormat
    else
      let logn := (rd sk 0 &&& 0x0F).toNat
      if logn < 1 ∨ logn > 10 then .error errFormat
      else if privkey.length ≠ privkeySize logn then .error errFormat
      else if pubkeyLen < pubkeySize logn ∨ tmpLen < tmpSizeMakePub logn then .error errSize
      else
        let u := 1
        match trimI8Decode logn (rd maxFgBits logn) (sk.drop u) with
        | none => .error errFormat
        | some (f, v) =>
          let u := u + v
          match trimI8Decode logn (rd maxFgBits logn) (sk.drop u) with
          | none => .error errFormat
          | some (g, _) => encodePubkey logn f g errFormat

/-- The bytes that can still be extracted from a context in output mode. -/
def shakeRng (perm : Lanes → Lanes) (sc : Shake256) : Rng := fun i => rd (Shake256.extract perm sc (i + 1)).2 i

/-! ### The sizes -/

private theorem key_sizes {logn : ℕ} (h1 : 1 ≤ logn) (h10 : logn ≤ 10) :
    privkeySize logn = 1 + ((2 ^ logn * rd maxFgBits logn + 7) / 8 + ((2 ^ logn * rd maxFgBits logn + 7) / 8 +
      (2 ^ logn * rd maxFGBits logn + 7) / 8)) ∧
    pubkeySize logn = 1 + (2 ^ logn * 14 + 7) / 8 ∧ (0 < rd maxFgBits logn ∧ rd maxFgBits logn ≤ 8) ∧
      rd maxFGBits logn = 8 ∧
        (UInt8.ofNat (0x50 + logn) &&& 0xF0 = 0x50 ∧ (UInt8.ofNat (0x50 + logn) &&& 0x0F).toNat = logn) := by
  have hall : ∀ k ≤ 10, 1 ≤ k →
    privkeySize k = 1 + ((2 ^ k * rd maxFgBits k + 7) / 8 + ((2 ^ k * rd maxFgBits k + 7) / 8 +
      (2 ^ k * rd maxFGBits k + 7) / 8)) ∧
    pubkeySize k = 1 + (2 ^ k * 14 + 7) / 8 ∧ (0 < rd maxFgBits k ∧ rd maxFgBits k ≤ 8) ∧
      rd maxFGBits k = 8 ∧ (UInt8.ofNat (0x50 + k) &&& 0xF0 = 0x50 ∧ (UInt8.ofNat (0x50 + k) &&& 0x0F).toNat = k) := by
    decide +kernel
  exact hall logn h10 h1

/-! ### The private key -/

/-- The decoding ignores the header. -/
private theorem decodeSignKey_congr {logn : ℕ} {sk sk' : List UInt8} (hlen : sk.length = sk'.length)
    (hdrop : sk.drop 1 = sk'.drop 1) : decodeSignKey logn sk = decodeSignKey logn sk' := by
  have hdrops : ∀ k, sk.drop (1 + k) = sk'.drop (1 + k) := fun k => by
    rw [← List.drop_drop, hdrop, List.drop_drop]
  unfold decodeSignKey
  simp only [hdrop, hdrops, Nat.add_assoc, hlen]

/-- A decoding that succeeds reads three polynomials, one behind the other, and nothing is left. -/
private theorem decodeSignKey_eq_ok {logn : ℕ} {sk : List UInt8} {polys : PrivatePolys}
    (h : decodeSignKey logn sk = .ok polys) :
    ∃ v v' v'', trimI8Decode logn (rd maxFgBits logn) (sk.drop 1) = some (polys.f, v) ∧
      trimI8Decode logn (rd maxFgBits logn) (sk.drop (1 + v)) = some (polys.g, v') ∧
      trimI8Decode logn (rd maxFGBits logn) (sk.drop (1 + v + v')) = some (polys.F, v'') ∧
      1 + v + v' + v'' = sk.length ∧ completePrivate polys.f polys.g polys.F logn = some polys.G := by
  unfold decodeSignKey at h
  simp only at h
  split at h
  · exact absurd h (by simp)
  rename_i f v hf
  split at h
  · exact absurd h (by simp)
  rename_i g v' hg
  split at h
  · exact absurd h (by simp)
  rename_i F v'' hF
  split at h
  · exact absurd h (by simp)
  rename_i hlen
  split at h
  · exact absurd h (by simp)
  rename_i G hG
  obtain rfl := Except.ok.inj h
  exact ⟨v, v', v'', hf, hg, hF, not_not.1 hlen, hG⟩

/-- Only coefficients in the ranges of the encoding are encoded. -/
private theorem range_of_encodePrivkey {logn : ℕ} {f g F : List Int8} {sk : List UInt8}
    (h : encodePrivkey logn f g F = .ok sk) : (∀ c ∈ f, TrimRange (rd maxFgBits logn) c) ∧
      (∀ c ∈ g, TrimRange (rd maxFgBits logn) c) ∧ ∀ c ∈ F, TrimRange (rd maxFGBits logn) c := by
  unfold encodePrivkey at h
  simp only at h
  split at h
  · exact absurd h (by simp)
  rename_i fBytes hf
  split at h
  · exact absurd h (by simp)
  rename_i gBytes hg
  split at h
  · exact absurd h (by simp)
  rename_i FBytes hF
  exact ⟨range_of_trimI8Encode hf, range_of_trimI8Encode hg, range_of_trimI8Encode hF⟩

section Privkey

variable {logn : ℕ} (h1 : 1 ≤ logn) (h10 : logn ≤ 10)
include h1 h10

/-- A private key in the ranges of the encoding is encoded. -/
private theorem encodePrivkey_complete {f g F : List Int8} (hf : f.length = 2 ^ logn) (hg : g.length = 2 ^ logn)
    (hF : F.length = 2 ^ logn) (hfr : ∀ c ∈ f, TrimRange (rd maxFgBits logn) c)
    (hgr : ∀ c ∈ g, TrimRange (rd maxFgBits logn) c) (hFr : ∀ c ∈ F, TrimRange (rd maxFGBits logn) c) :
    ∃ sk, encodePrivkey logn f g F = .ok sk ∧ sk.length = privkeySize logn ∧ rd sk 0 = UInt8.ofNat (0x50 + logn) ∧
      ∀ G, completePrivate f g F logn = some G → decodeSignKey logn sk = .ok ⟨f, g, F, G⟩ := by
  obtain ⟨hsk, -, ⟨hb0, hb8⟩, hb, -⟩ := key_sizes h1 h10
  obtain ⟨fBytes, hf1, hf2, hf3⟩ := trimI8Decode_trimI8Encode hb0 hb8 hf hfr (show _ ≤ privkeySize logn - 1 by omega)
  obtain ⟨gBytes, hg1, hg2, hg3⟩ := trimI8Decode_trimI8Encode hb0 hb8 hg hgr
    (show _ ≤ privkeySize logn - (1 + fBytes.length) by omega)
  obtain ⟨FBytes, hF1, hF2, hF3⟩ := trimI8Decode_trimI8Encode (by omega) (by omega) hF hFr
    (show _ ≤ privkeySize logn - (1 + fBytes.length + gBytes.length) by omega)
  refine ⟨UInt8.ofNat (0x50 + logn) :: (fBytes ++ (gBytes ++ FBytes)), ?_, ?_, rfl, fun G hG => ?_⟩
  · unfold encodePrivkey
    simp only [hf1, hg1, hF1]
    rw [if_neg (by omega)]
  · rw [List.length_cons, List.length_append, List.length_append]
    omega
  · have hd1 : (UInt8.ofNat (0x50 + logn) :: (fBytes ++ (gBytes ++ FBytes))).drop (1 + fBytes.length) =
      gBytes ++ FBytes := by
      rw [Nat.add_comm, List.drop_succ_cons, List.drop_left]
    have hd2 : (UInt8.ofNat (0x50 + logn) :: (fBytes ++ (gBytes ++ FBytes))).drop (1 + fBytes.length + gBytes.length) =
        FBytes := by
      rw [Nat.add_assoc, Nat.add_comm, List.drop_succ_cons, ← List.append_assoc, ← List.length_append, List.drop_left]
    have hF4 := hF3 []
    rw [List.append_nil] at hF4
    unfold decodeSignKey
    simp only [List.drop_one, List.tail_cons, hf3, hd1, hg3, hd2, hF4]
    rw [if_neg (by rw [List.length_cons, List.length_append, List.length_append]; omega), hG]

/-- What is decoded is encoded to the same string, but for its header. -/
private theorem encodePrivkey_of_decodeSignKey {sk : List UInt8} (hs : sk.length = privkeySize logn)
    {polys : PrivatePolys} (h : decodeSignKey logn sk = .ok polys) :
    (polys.f.length = 2 ^ logn ∧ polys.g.length = 2 ^ logn ∧ polys.F.length = 2 ^ logn) ∧
      encodePrivkey logn polys.f polys.g polys.F = .ok (UInt8.ofNat (0x50 + logn) :: sk.drop 1) ∧
        completePrivate polys.f polys.g polys.F logn = some polys.G := by
  obtain ⟨hsk, -, ⟨hb0, hb8⟩, hb, -⟩ := key_sizes h1 h10
  obtain ⟨v, v', v'', hf, hg, hF, hlen, hG⟩ := decodeSignKey_eq_ok h
  obtain ⟨hf1, -, hf3, hf4⟩ := trimI8Encode_trimI8Decode hb0 hb8 hf (show _ ≤ privkeySize logn - 1 by omega)
  obtain ⟨hg1, -, hg3, hg4⟩ := trimI8Encode_trimI8Decode hb0 hb8 hg (show _ ≤ privkeySize logn - (1 + v) by omega)
  obtain ⟨hF1, -, hF3, hF4⟩ := trimI8Encode_trimI8Decode (by omega) (by omega) hF
    (show _ ≤ privkeySize logn - (1 + v + v') by omega)
  refine ⟨⟨hf1, hg1, hF1⟩, ?_, hG⟩
  have hl1 : ((sk.drop 1).take v).length = v := by
    rw [List.length_take, List.length_drop]
    omega
  have hl2 : ((sk.drop (1 + v)).take v').length = v' := by
    rw [List.length_take, List.length_drop]
    omega
  have hl3 : (sk.drop (1 + v + v')).take v'' = sk.drop (1 + v + v') := by
    refine List.take_of_length_le ?_
    rw [List.length_drop]
    omega
  have hparts : (sk.drop 1).take v ++ ((sk.drop (1 + v)).take v' ++ sk.drop (1 + v + v')) = sk.drop 1 := by
    rw [← List.drop_drop (i := v') (j := 1 + v), List.take_append_drop, ← List.drop_drop (i := v) (j := 1),
      List.take_append_drop]
  rw [hl3] at hF4
  unfold encodePrivkey
  simp only [hf4, hl1, hg4, hl2, hF4]
  rw [if_neg (by rw [List.length_drop]; omega), hparts]

/-- A string of the right size is decoded exactly if, after its header, it is the encoding of what is decoded. -/
theorem decodeSignKey_iff {sk : List UInt8} (hs : sk.length = privkeySize logn) (polys : PrivatePolys) :
    decodeSignKey logn sk = .ok polys ↔
      (polys.f.length = 2 ^ logn ∧ polys.g.length = 2 ^ logn ∧ polys.F.length = 2 ^ logn) ∧
        encodePrivkey logn polys.f polys.g polys.F = .ok (UInt8.ofNat (0x50 + logn) :: sk.drop 1) ∧
          completePrivate polys.f polys.g polys.F logn = some polys.G := by
  constructor
  · exact encodePrivkey_of_decodeSignKey h1 h10 hs
  · rintro ⟨⟨hf, hg, hF⟩, henc, hG⟩
    obtain ⟨hfr, hgr, hFr⟩ := range_of_encodePrivkey henc
    obtain ⟨sk', henc', hs', -, hdec⟩ := encodePrivkey_complete h1 h10 hf hg hF hfr hgr hFr
    have hdrop : sk'.drop 1 = sk.drop 1 := by
      rw [← Except.ok.inj (henc.symm.trans henc')]
      rfl
    rw [← decodeSignKey_congr (hs'.trans hs.symm) hdrop, hdec polys.G hG]

end Privkey

/-- The encoding of the key of degree 2 that `newKeygen_small` generates. -/
theorem decodeSignKey_iff_small : decodeSignKey 1 [0x51, 0x01, 0xF7, 0x62, 0xFF, 0x88, 0xFB] =
    .ok ⟨smallKey.f, smallKey.g, smallKey.F, smallKey.G⟩ :=
  (decodeSignKey_iff (by decide) (by decide) rfl ⟨smallKey.f, smallKey.g, smallKey.F, smallKey.G⟩).2
    ⟨⟨rfl, rfl, rfl⟩, by decide, by decide +kernel⟩

/-! ### The public key -/

/-- The public key of an invertible polynomial is encoded. -/
private theorem encodePubkey_complete {logn : ℕ} (h1 : 1 ≤ logn) (h10 : logn ≤ 10) {f g : List Int8} {h : List UInt16}
    (hpub : computePublic f g logn = some h) (hkey : IsPublicKey logn f g h) :
    ∃ body, body.length = pubkeySize logn - 1 ∧ modqDecode logn body = some (h, pubkeySize logn - 1) ∧
      ∀ e, encodePubkey logn f g e = .ok (UInt8.ofNat logn :: body) := by
  obtain ⟨-, hpk, -⟩ := key_sizes h1 h10
  obtain ⟨body, hb1, hb2, hb3⟩ := modqDecode_modqEncode hkey.length hkey.reduced (show _ ≤ pubkeySize logn - 1 by omega)
  have hlen : body.length = pubkeySize logn - 1 := by omega
  rw [hlen] at hb3
  refine ⟨body, hlen, hb3, fun e => ?_⟩
  unfold encodePubkey
  simp only [hpub, hb1]
  rw [if_neg (by omega)]

/-! ### Both keys -/

/-- The encodings of a complete key. -/
structure EncodesKey (logn : ℕ) (key : NtruKey) (sk pk : List UInt8) : Prop where
  sizes : sk.length = privkeySize logn ∧ pk.length = pubkeySize logn
  headers : rd sk 0 = UInt8.ofNat (0x50 + logn) ∧ rd pk 0 = UInt8.ofNat logn
  privkey : decodeSignKey logn sk = .ok ⟨key.f, key.g, key.F, key.G⟩
  pubkey : modqDecode logn (pk.drop 1) = some (key.h, pubkeySize logn - 1)

section Make

variable {logn : ℕ} (h1 : 1 ≤ logn) (h10 : logn ≤ 10) {key : NtruKey} (hkey : IsNtruKey logn key)
include h1 h10 hkey

/-- `complete_private` finds the polynomial `G` of a complete key. -/
private theorem IsNtruKey.completePrivate_eq : completePrivate key.f key.g key.F logn = some key.G := by
  obtain ⟨hf, hg, hF, hG⟩ := hkey.lengths
  have hbits := (key_sizes h1 h10).2.2.2.1
  refine completePrivate_complete h10 hf hg hF hG (fun c hc h128 => ?_)
    ((exists_isInverse_iff h10 _).1 hkey.invertible) fun e he => ?_
  · have hr := (hkey.rangeFG.2 c hc).1
    rw [hbits, h128] at hr
    exact absurd hr (by decide)
  · -- the equation over the integers, modulo `q`
    have hcast : ∀ x y : List Int8, mulMod (2 ^ logn) (zqCoeffs x) (zqCoeffs y) e =
        ((mulMod (2 ^ logn) (intCoeffs x) (intCoeffs y) e : ℤ) : Zq) := by
      intro x y
      rw [mulMod_eq_conv _ _ he, mulMod_eq_conv _ _ he]
      exact (map_conv (Int.castRingHom Zq) _ (intCoeffs x) (intCoeffs y) e).symm
    have heq := congrArg (fun z : ℤ => (z : Zq)) (hkey.ntru e he)
    simp only [Int.cast_sub] at heq
    rw [hcast, hcast]
    refine sub_eq_zero.1 (heq.trans ?_)
    split
    · rfl
    · rfl

/-- The keys of a complete key are encoded, and decoded to it. -/
private theorem IsNtruKey.exists_encodesKey (hpub : computePublic key.f key.g logn = some key.h) :
    ∃ sk pk, encodePrivkey logn key.f key.g key.F = .ok sk ∧ (∀ e, encodePubkey logn key.f key.g e = .ok pk) ∧
      EncodesKey logn key sk pk := by
  obtain ⟨hf, hg, hF, hG⟩ := hkey.lengths
  obtain ⟨sk, hsk1, hsk2, hsk3, hsk4⟩ :=
    encodePrivkey_complete h1 h10 hf hg hF hkey.rangeFg.1 hkey.rangeFg.2 hkey.rangeFG.1
  obtain ⟨body, hb1, hb2, hb3⟩ := encodePubkey_complete h1 h10 hpub hkey.publicKey
  have hpk := (key_sizes h1 h10).2.1
  refine ⟨sk, UInt8.ofNat logn :: body, hsk1, hb3, ⟨hsk2, ?_⟩, ⟨hsk3, rfl⟩, hsk4 _ (hkey.completePrivate_eq h1 h10),
    hb2⟩
  rw [List.length_cons]
  omega

omit hkey in
/-- The public key can be recomputed from the private key. -/
private theorem EncodesKey.falconMakePublic_eq {sk pk : List UInt8} (henc : EncodesKey logn key sk pk)
    (hpub : ∀ e, encodePubkey logn key.f key.g e = .ok pk) {pubkeyLen tmpLen : ℕ} (hlen : pubkeySize logn ≤ pubkeyLen)
    (htmp : tmpSizeMakePub logn ≤ tmpLen) : falconMakePublic pubkeyLen sk tmpLen = .ok pk := by
  obtain ⟨hsk, -, -, -, hnibble⟩ := key_sizes h1 h10
  have hdec := henc.privkey
  unfold decodeSignKey at hdec
  simp only at hdec
  split at hdec
  · exact absurd hdec (by simp)
  rename_i f v hf
  split at hdec
  · exact absurd hdec (by simp)
  rename_i g v' hg
  split at hdec
  · exact absurd hdec (by simp)
  split at hdec
  · exact absurd hdec (by simp)
  split at hdec
  · exact absurd hdec (by simp)
  obtain ⟨rfl, rfl, -, -⟩ := PrivatePolys.mk.inj (Except.ok.inj hdec)
  have hs := henc.sizes.1
  unfold falconMakePublic
  simp only [henc.headers.1, hnibble.1, hnibble.2]
  rw [if_neg (by omega), if_neg (not_not.2 rfl), if_neg (by omega), if_neg (not_not.2 hs), if_neg (by omega)]
  simp only [hf, hg, hpub]

end Make

/-- What is returned with buffers that are large enough. -/
theorem falconKeygenMake_parts {logn : ℕ} (h1 : 1 ≤ logn) (h10 : logn ≤ 10) {env : KeygenEnv}
    {fuel iters : ℕ} {rng : Rng}
    {privkeyLen pubkeyLen tmpLen : ℕ} (hsk : privkeySize logn ≤ privkeyLen) (hpk : pubkeySize logn ≤ pubkeyLen)
    (htmp : tmpSizeKeygen logn ≤ tmpLen) {r : Except ℤ (List UInt8 × Option (List UInt8))}
    (hr : falconKeygenMake env fuel iters rng logn privkeyLen (some pubkeyLen) tmpLen = some r) :
    ∃ key sk pk, r = .ok (sk, some pk) ∧ IsNtruKey logn key ∧ EncodesKey logn key sk pk ∧
      ∀ e, encodePubkey logn key.f key.g e = .ok pk := by
  unfold falconKeygenMake at hr
  rw [if_neg (by omega), if_neg (by simp only [Option.any_some, decide_eq_true_eq]; omega)] at hr
  split at hr
  · exact absurd hr (by simp)
  · rename_i key hnew
    have hkey := newKeygen_spec h1 h10 hnew
    obtain ⟨sk, pk, henc1, henc2, henc⟩ := hkey.exists_encodesKey h1 h10 (newKeygen_key hnew).2.1
    simp only [henc1, henc2] at hr
    exact ⟨key, sk, pk, (Option.some.inj hr).symm, hkey, henc, henc2⟩

/-- With buffers that are large enough, generation never ends with an error.  The private key and the public key that it
returns are encodings of one complete key, and the public key can be recomputed from the private key. -/
theorem falconKeygenMake_spec {logn : ℕ} (h1 : 1 ≤ logn) (h10 : logn ≤ 10) {env : KeygenEnv}
    {fuel iters : ℕ} {rng : Rng}
    {privkeyLen pubkeyLen tmpLen : ℕ} (hsk : privkeySize logn ≤ privkeyLen) (hpk : pubkeySize logn ≤ pubkeyLen)
    (htmp : tmpSizeKeygen logn ≤ tmpLen) {r : Except ℤ (List UInt8 × Option (List UInt8))}
    (hr : falconKeygenMake env fuel iters rng logn privkeyLen (some pubkeyLen) tmpLen = some r) :
    ∃ key sk pk, r = .ok (sk, some pk) ∧ IsNtruKey logn key ∧ EncodesKey logn key sk pk ∧
      falconMakePublic (pubkeySize logn) sk (tmpSizeMakePub logn) = .ok pk := by
  obtain ⟨key, sk, pk, hok, hkey, henc, hpub⟩ := falconKeygenMake_parts h1 h10 hsk hpk htmp hr
  exact ⟨key, sk, pk, hok, hkey, henc, henc.falconMakePublic_eq h1 h10 hpub le_rfl le_rfl⟩

theorem falconKeygenMake_small : ∃ key sk pk,
    falconKeygenMake smallEnv 1 1 smallRng 1 (privkeySize 1) (some (pubkeySize 1)) (tmpSizeKeygen 1) =
      some (.ok (sk, some pk)) ∧ IsNtruKey 1 key ∧ EncodesKey 1 key sk pk ∧
        falconMakePublic (pubkeySize 1) sk (tmpSizeMakePub 1) = .ok pk := by
  obtain ⟨r, hr⟩ : ∃ r, falconKeygenMake smallEnv 1 1 smallRng 1 (privkeySize 1) (some (pubkeySize 1))
    (tmpSizeKeygen 1) =
      some r := by
    unfold falconKeygenMake
    rw [if_neg (by decide), if_neg (by decide), newKeygen_small]
    simp only
    split
    · exact ⟨_, rfl⟩
    · split
      · exact ⟨_, rfl⟩
      · exact ⟨_, rfl⟩
  obtain ⟨key, sk, pk, hok, h⟩ := falconKeygenMake_spec (by decide) (by decide) le_rfl le_rfl le_rfl hr
  exact ⟨key, sk, pk, by rw [hr, hok], h⟩

/-! ### The context as a stream -/

/-- Extracting from a context is reading its stream. -/
theorem extractBytes_shakeRng {perm : Lanes → Lanes} {bs : List UInt8} {sc : Shake256} {p : ℕ}
    (h : Shake256.AtPos perm bs sc p) (len : ℕ) : extractBytes (shakeRng perm sc) len =
      ((Shake256.extract perm sc len).2, shakeRng perm (Shake256.extract perm sc len).1) := by
  have hbyte : ∀ {sc : Shake256} {p : ℕ}, Shake256.AtPos perm bs sc p → ∀ i, shakeRng perm sc i =
      Shake256.keystream perm bs (p + i) := by
    intro sc p h i
    unfold shakeRng
    rw [(Shake256.extract_spec h (i + 1)).2, rd_eq_getElem (by simp), List.getElem_map, List.getElem_range', one_mul]
  obtain ⟨hpos, hout⟩ := Shake256.extract_spec h len
  refine Prod.ext ?_ ?_
  · refine List.ext_getElem? fun i => ?_
    simp only [extractBytes, hout]
    by_cases hi : i < len
    · rw [Stream'.getElem?_take hi, List.getElem?_map, List.getElem?_range' hi, one_mul, Option.map_some]
      exact congrArg some (hbyte h i)
    · rw [List.getElem?_eq_none (by simpa using hi), List.getElem?_eq_none (by simpa using hi)]
  · funext i
    have hdrop : (shakeRng perm sc).drop len i = shakeRng perm sc (i + len) := rfl
    simp only [extractBytes]
    rw [hdrop, hbyte h, hbyte hpos, Nat.add_assoc, Nat.add_comm i]

end DfVrf.Crypto
