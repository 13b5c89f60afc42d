import DfVrf.Contracts.FalconCore
import DfVrf.Contracts.HashToPoint
import DfVrf.Lib.BatchInverse

/-!
# Key recovery in the contracts (`DFVRF_vrf_epervier.sol`)

`recover` inverts the transform of `s2` with the help of a hint, which is to be the inverse of the product of its 512
entries, and returns the address of `(c - s1) / s2`.  Whatever the hint is, all 512 terms of the test are equal, so
that the sum over them, modulo `2 ^ 256`, vanishes exactly for the right hint (`hintCheck_exact`).
-/

namespace DfVrf.Contracts

open InPlace Negacyclic Word

/-- Store a word at a byte offset from the start of an array, whose length occupies the first word. -/
def mstore (a : List Word) (offset : ℕ) (v : Word) : List Word := a.set ((offset - 32) / 32) v

/-- `HashToAddress`. -/
def hashToAddress (K : Crypto.Keccak256) (m : List UInt8) : BitVec 160 := (ofBytes (K m).1).setWidth 160

/-- `abi.encodePacked` of an array of words. -/
def encodePacked (a : List Word) : List UInt8 := a.flatMap bytes

/-- `_ZKNOX_VECMULMOD`. -/
def vecmulmod (a b : List Word) : List Word :=
  (List.range n).foldl (fun res i => res.set i (mulmod (rd a i) (rd b i) q)) (List.replicate n 0)

/-- The norm loop of `recover`. -/
def epervierNorm (s1 s2 : List Word) : Word :=
  (offsets 32 16384).foldl (fun norm offset => normStep (normStep norm (mload s1 offset)) (mload s2 offset)) 0

/-- The arrays `prefix` and `s2_inverse_ntt` of `recover`; the result is `s2_inverse_ntt`. -/
def s2InverseNtt (s2 : List Word) (hint : Word) : List Word :=
  let pre := (List.replicate 512 0).set 0 (rd s2 0)
  let inv := (List.replicate 512 0).set 511 hint
  let pre := ((offsets 64 16416).foldl (fun st offset =>
    let temp := mulmod st.1 (mload s2 offset) q
    (temp, mstore st.2 offset temp)) (mload pre 32, pre)).2
  let inv := (offsets 32 16384).foldl (fun inv offset =>
    let temp := mulmod (mload inv (16416 - offset)) (mload s2 (16416 - offset)) q
    mstore inv (16384 - offset) temp) inv
  (offsets 64 16416).foldl (fun inv offset =>
    let temp := mulmod (mload pre (offset - 32)) (mload inv offset) q
    mstore inv offset temp) inv

/-- The last loop of `recover`: the sum of the tests of the hint, and `hashed - s1`. -/
def hintLoop (s1 s2 inv hashed : List Word) : Word × List Word :=
  (offsets 32 16416).foldl (fun st offset =>
    let norm := st.1 + (1 - mulmod (mload s2 offset) (mload inv offset) q)
    (norm, mstore st.2 offset (addmod (mload st.2 offset) (q - mload s1 offset) q))) (0, hashed)

/-- `ZKNOX_vrf_epervier.recover`, with the function that hashes the transcript; `none` means that the hashing has not
ended. -/
def recoverWith (hashToPoint : List UInt8 → List UInt8 → Option (List Word)) (K : Crypto.Keccak256)
    (transcript salt : List UInt8) (cs1 cs2 : List Word) (hint : Word) : Option (Except String (BitVec 160)) :=
  if salt.length ≠ 40 then some (.error "wrong salt length")
  else if cs1.length ≠ 32 then some (.error "Invalid s1 length")
  else if cs2.length ≠ 32 then some (.error "Invalid s2 length")
  else
    let s1 := nttExpand cs1
    let s2 := nttExpand cs2
    if epervierNorm s1 s2 > sigBound then some (.error "norm too large")
    else
      let s2 := nttfw s2
      let inv := s2InverseNtt s2 hint
      match hashToPoint salt transcript with
      | none => none
      | some hashed =>
        let st := hintLoop s1 s2 inv hashed
        if st.1 ≠ 0 then some (.error "wrong hint")
        else some (.ok (hashToAddress K (encodePacked (vecmulmod (nttfw st.2) inv))))

/-- `ZKNOX_vrf_epervier.recover`. -/
def recover (f : Lanes → Lanes) (fuel : ℕ) (K : Crypto.Keccak256) (transcript salt : List UInt8)
    (cs1 cs2 : List Word) (hint : Word) : Option (Except String (BitVec 160)) :=
  recoverWith (hashToPointNIST f fuel) K transcript salt cs1 cs2 hint

/-! ### Offsets -/

private theorem mload_offset (a : List Word) (i : ℕ) : mload a (32 + 32 * i) = rd a i := by
  rw [mload, show (32 + 32 * i - 32) / 32 = i by omega]

private theorem mstore_offset (a : List Word) (i : ℕ) (v : Word) : mstore a (32 + 32 * i) v = a.set i v := by
  rw [mstore, show (32 + 32 * i - 32) / 32 = i by omega]

/-- The offsets of the entries `s, …, s + k - 1`. -/
private theorem offsets_eq_map_range' (s k : ℕ) :
    offsets (32 + 32 * s) (32 + 32 * (s + k)) = (List.range' s k).map fun i => 32 + 32 * i := by
  rw [offsets, show (32 + 32 * (s + k) - (32 + 32 * s) + 31) / 32 = k by omega]
  apply List.ext_getElem
  · simp
  · intro i h1 h2
    simp only [List.getElem_range', List.getElem_map]
    omega

/-! ### The inverse from the hint -/

/-- The loops are those of the batch inversion. -/
private theorem s2InverseNtt_eq (s2 : List Word) (hint : Word) : s2InverseNtt s2 hint =
    BatchInverse.inverses (fun x y => mulmod x y q) s2 512 ((List.replicate 512 0).set 0 (rd s2 0))
      ((List.replicate 512 0).set 511 hint) := by
  have h1 : offsets 64 16416 = (List.range' 1 511).map fun i => 32 + 32 * i := offsets_eq_map_range' 1 511
  have h2 : offsets 32 16384 = (List.range 511).map fun i => 32 + 32 * i := offsets_eq_map 511
  have h0 : ∀ a, mload a 32 = rd a 0 := fun a => mload_offset a 0
  rw [s2InverseNtt, BatchInverse.inverses, BatchInverse.combine, BatchInverse.prefixes, BatchInverse.suffixes]
  simp only [h1, h2, h0, List.foldl_map, mload_offset, mstore_offset, Nat.reduceSub]
  have hsuffix : ∀ b : List Word, (List.range 511).foldl (fun inv k => mstore inv (16384 - (32 + 32 * k))
      (mulmod (mload inv (16416 - (32 + 32 * k))) (mload s2 (16416 - (32 + 32 * k))) q)) b =
      (List.range 511).foldl (fun b k => b.set (511 - k - 1) (mulmod (rd b (511 - k)) (rd s2 (511 - k)) q)) b := by
    intro b
    apply List.foldl_ext
    intro b k hk
    have hk := List.mem_range.1 hk
    rw [show 16384 - (32 + 32 * k) = 32 + 32 * (511 - k - 1) by omega, show 16416 - (32 + 32 * k) = 32 + 32 * (511 - k)
      by omega, mload_offset, mload_offset, mstore_offset]
  rw [hsuffix]
  apply List.foldl_ext
  intro b i hi
  obtain ⟨j, hj, rfl⟩ := List.mem_range'.1 hi
  rw [show 32 + 32 * (1 + 1 * j) - 32 = 32 + 32 * j by omega, mload_offset, show 1 + 1 * j - 1 = j by omega]

private theorem ofWord_mulmod (x y : Word) : ofWord (mulmod x y q) = ofWord x * ofWord y := (mulmod_spec x y).2

/-- Every entry times that of `s2` is the hint times the product of all entries of `s2`. -/
theorem s2InverseNtt_spec (s2 : List Word) (hint : Word) {i : ℕ} (hi : i < 512) :
    WordReduced (rd (s2InverseNtt s2 hint) i) ∧ ofWord (rd (s2InverseNtt s2 hint) i) * ofWord (rd s2 i) =
      ofWord hint * ∏ j ∈ Finset.range 512, ofWord (rd s2 j) := by
  have hl : ∀ j (w : Word), ((List.replicate 512 (0 : Word)).set j w).length = 512 := by
    intro j w
    rw [List.length_set, List.length_replicate]
  rw [s2InverseNtt_eq]
  constructor
  · obtain ⟨x, y, hxy⟩ := BatchInverse.exists_inverses_eq_mul (fun x y => mulmod x y q) s2
      ((List.replicate 512 0).set 0 (rd s2 0)) (by omega) (hl 511 hint) hi
    rw [hxy]
    exact (mulmod_spec x y).1
  · have hfirst : ofWord (rd ((List.replicate 512 0).set 0 (rd s2 0)) 0) = ofWord (rd s2 0) := by
      rw [rd_set, if_pos ⟨rfl, by rw [List.length_replicate]; omega⟩]
    have hlast : rd ((List.replicate 512 0).set 511 hint) (512 - 1) = hint := by
      rw [rd_set, if_pos ⟨rfl, by rw [List.length_replicate]; omega⟩]
    rw [BatchInverse.mul_inverses ofWord_mulmod (hl 0 _) (hl 511 hint) hfirst hi, hlast]

/-! ### The test of the hint -/

/-- The entry `i` of the transform of `s2`, as an element of `ℤ_q`. -/
def s2Transform (cs2 : List Word) (i : ℕ) : Zq := ofWord (rd (nttfw (nttExpand cs2)) i)

theorem s2Transform_eq (cs2 : List Word) {i : ℕ} (hi : i < 512) :
    s2Transform cs2 i = fwd Crypto.twiddle 9 9 (fun e => ofWord (slots cs2 e)) i :=
  (nttfw_rep (nttExpand_rep cs2)).val_rd i hi

private theorem hintLoop_eq (s1 s2 inv hashed : List Word) : hintLoop s1 s2 inv hashed =
    (List.range 512).foldl (fun st i => (st.1 + (1 - mulmod (rd s2 i) (rd inv i) q),
      st.2.set i (addmod (rd st.2 i) (q - rd s1 i) q))) (0, hashed) := by
  have h : offsets 32 16416 = (List.range 512).map fun i => 32 + 32 * i := offsets_eq_map 512
  rw [hintLoop, h, List.foldl_map]
  simp only [mload_offset, mstore_offset]

/-- The sum of the last loop after `k` entries whose tests are all made of `w`. -/
private theorem toNat_foldl_hint {s1 s2 inv hashed : List Word} {w : Word}
    (hw : ∀ i < 512, mulmod (rd s2 i) (rd inv i) q = w) {k : ℕ} (hk : k ≤ 512) :
    ((List.range k).foldl (fun st i => (st.1 + (1 - mulmod (rd s2 i) (rd inv i) q),
      st.2.set i (addmod (rd st.2 i) (q - rd s1 i) q))) ((0 : Word), hashed)).1.toNat =
      k * (1 - w).toNat % 2 ^ 256 := by
  induction k with
  | zero =>
    rw [Nat.zero_mul]
    rfl
  | succ k ih =>
    rw [List.range_succ, List.foldl_append, List.foldl_cons, List.foldl_nil, hw k (by omega), BitVec.toNat_add,
      ih (by omega), Nat.mod_add_mod, Nat.succ_mul]

/-- The array of the last loop after `k` entries. -/
private theorem rd_foldl_hint (s1 s2 inv hashed : List Word) (k i : ℕ) :
    let a := ((List.range k).foldl (fun st i => (st.1 + (1 - mulmod (rd s2 i) (rd inv i) q),
      st.2.set i (addmod (rd st.2 i) (q - rd s1 i) q))) ((0 : Word), hashed)).2
    a.length = hashed.length ∧ rd a i =
      if i < k ∧ i < hashed.length then addmod (rd hashed i) (q - rd s1 i) q else rd hashed i := by
  induction k generalizing i with
  | zero => simp
  | succ k ih =>
    simp only [List.range_succ, List.foldl_append, List.foldl_cons, List.foldl_nil, List.length_set, (ih k).1, true_and]
    rw [rd_set, (ih k).1, (ih k).2, (ih i).2, if_neg (by omega : ¬ (k < k ∧ k < hashed.length))]
    by_cases h : k = i
    · subst h
      by_cases hl : k < hashed.length
      · rw [if_pos ⟨rfl, hl⟩, if_pos ⟨by omega, hl⟩]
      · rw [if_neg (by omega), if_neg (by omega), if_neg (by omega)]
    · rw [if_neg (by omega)]
      exact if_congr (by omega) rfl rfl

/-- A sum of 512 equal tests vanishes modulo `2 ^ 256` only if the tests do. -/
private theorem mod_eq_zero_iff_of_reduced {w : Word} (hw : WordReduced w) :
    512 * (1 - w).toNat % 2 ^ 256 = 0 ↔ w = 1 := by
  have hw : w.toNat < 12289 := hw
  have h1 : (1 : Word).toNat = 1 := rfl
  rw [BitVec.toNat_sub, h1, ← BitVec.toNat_inj, h1]
  omega

theorem ofWord_one : ofWord 1 = 1 := by decide

private theorem reduced_one : WordReduced 1 := by
  show (1 : Word).toNat < 12289
  decide

theorem WordReduced.eq_one_iff {w : Word} (hw : WordReduced w) : w = 1 ↔ ofWord w = 1 := by
  constructor
  · rintro rfl
    exact ofWord_one
  · intro h
    exact hw.eq_of_ofWord reduced_one (h.trans ofWord_one.symm)

/-- All tests are equal, so that their sum vanishes only for the inverse of the product. -/
theorem hintLoop_fst_eq_zero_iff (s1 s2 : List Word) (hint : Word) (hashed : List Word) :
    (hintLoop s1 s2 (s2InverseNtt s2 hint) hashed).1 = 0 ↔
      ofWord hint * ∏ i ∈ Finset.range 512, ofWord (rd s2 i) = 1 := by
  have hval : ∀ i < 512, ofWord (mulmod (rd s2 i) (rd (s2InverseNtt s2 hint) i) q) =
      ofWord hint * ∏ j ∈ Finset.range 512, ofWord (rd s2 j) := by
    intro i hi
    rw [ofWord_mulmod, mul_comm]
    exact (s2InverseNtt_spec s2 hint hi).2
  have hred : ∀ i, WordReduced (mulmod (rd s2 i) (rd (s2InverseNtt s2 hint) i) q) := fun i => (mulmod_spec _ _).1
  have hw : ∀ i < 512, mulmod (rd s2 i) (rd (s2InverseNtt s2 hint) i) q =
      mulmod (rd s2 0) (rd (s2InverseNtt s2 hint) 0) q := by
    intro i hi
    exact (hred i).eq_of_ofWord (hred 0) ((hval i hi).trans (hval 0 (by omega)).symm)
  have h0 : (0 : Word).toNat = 0 := rfl
  rw [hintLoop_eq, ← BitVec.toNat_inj, toNat_foldl_hint hw le_rfl, h0,
    mod_eq_zero_iff_of_reduced (hred 0), (hred 0).eq_one_iff, hval 0 (by omega)]

/-- What `recover` tests before it looks at the hint, when the hashing returns `hashed`. -/
structure Recoverable (hashToPoint : List UInt8 → List UInt8 → Option (List Word)) (transcript salt : List UInt8)
    (cs1 cs2 hashed : List Word) : Prop where
  length_salt : salt.length = 40
  length_s1 : cs1.length = 32
  length_s2 : cs2.length = 32
  norm : epervierNorm (nttExpand cs1) (nttExpand cs2) ≤ sigBound
  hashed : hashToPoint salt transcript = some hashed

/-- The outcome of `recover` behind the test of the norm. -/
theorem Recoverable.eq {hashToPoint : List UInt8 → List UInt8 → Option (List Word)} {transcript salt : List UInt8}
    {cs1 cs2 hashed : List Word} (h : Recoverable hashToPoint transcript salt cs1 cs2 hashed) (K : Crypto.Keccak256)
    (hint : Word) : recoverWith hashToPoint K transcript salt cs1 cs2 hint =
      if ofWord hint * ∏ i ∈ Finset.range 512, s2Transform cs2 i = 1 then
        some (.ok (hashToAddress K (encodePacked (vecmulmod (nttfw (hintLoop (nttExpand cs1) (nttfw (nttExpand cs2))
          (s2InverseNtt (nttfw (nttExpand cs2)) hint) hashed).2) (s2InverseNtt (nttfw (nttExpand cs2)) hint)))))
      else some (.error "wrong hint") := by
  have hiff := hintLoop_fst_eq_zero_iff (nttExpand cs1) (nttfw (nttExpand cs2)) hint hashed
  rw [recoverWith, if_neg (not_not.2 h.length_salt), if_neg (not_not.2 h.length_s1), if_neg (not_not.2 h.length_s2)]
  simp only [h.hashed, gt_iff_lt, BitVec.not_lt.2 h.norm, if_false]
  by_cases h1 : ofWord hint * ∏ i ∈ Finset.range 512, s2Transform cs2 i = 1
  · rw [if_pos h1, if_neg (not_not.2 (hiff.2 h1))]
  · rw [if_neg h1, if_pos (mt hiff.1 h1)]

/-- An address, or the complaint about the hint, is the outcome of the test of the hint. -/
theorem exists_recoverable {hashToPoint : List UInt8 → List UInt8 → Option (List Word)} {K : Crypto.Keccak256}
    {transcript salt : List UInt8} {cs1 cs2 : List Word} {hint : Word} {r : Except String (BitVec 160)}
    (h : recoverWith hashToPoint K transcript salt cs1 cs2 hint = some r)
    (hr : ∀ msg ∈ ["wrong salt length", "Invalid s1 length", "Invalid s2 length", "norm too large"], r ≠ .error msg) :
    ∃ hashed, Recoverable hashToPoint transcript salt cs1 cs2 hashed := by
  simp only [recoverWith] at h
  split_ifs at h with hsalt h1 h2 hn
  · exact absurd (Option.some.inj h).symm (hr _ (by simp))
  · exact absurd (Option.some.inj h).symm (hr _ (by simp))
  · exact absurd (Option.some.inj h).symm (hr _ (by simp))
  · exact absurd (Option.some.inj h).symm (hr _ (by simp))
  · cases hp : hashToPoint salt transcript with
    | none => simp [hp] at h
    | some hashed => exact ⟨hashed, not_not.1 hsalt, not_not.1 h1, not_not.1 h2, BitVec.not_lt.1 hn, hp⟩

/-- `recover` complains about the hint exactly when it gets to the test and the hint is not the inverse of the
product. -/
theorem recoverWith_eq_wrongHint_iff (hashToPoint : List UInt8 → List UInt8 → Option (List Word))
    (K : Crypto.Keccak256) (transcript salt : List UInt8) (cs1 cs2 : List Word) (hint : Word) :
    recoverWith hashToPoint K transcript salt cs1 cs2 hint = some (.error "wrong hint") ↔
      (∃ hashed, Recoverable hashToPoint transcript salt cs1 cs2 hashed) ∧
        ofWord hint * ∏ i ∈ Finset.range 512, s2Transform cs2 i ≠ 1 := by
  constructor
  · intro h
    obtain ⟨hashed, hr⟩ := exists_recoverable h (by simp)
    refine ⟨⟨hashed, hr⟩, fun h1 => ?_⟩
    rw [hr.eq, if_pos h1] at h
    simp at h
  · rintro ⟨⟨hashed, hr⟩, hne⟩
    rw [hr.eq, if_neg hne]

/-- `recover` rejects exactly the hints that are not the inverse of the product of the entries of the transform of `s2`.
For the others every entry of the array `s2_inverse_ntt` is reduced and the inverse of the entry of the transform. -/
theorem hintCheck_exact (f : Lanes → Lanes) (fuel : ℕ) (K : Crypto.Keccak256) (transcript salt : List UInt8)
    (cs1 cs2 : List Word) (hint : Word) :
    (recover f fuel K transcript salt cs1 cs2 hint = some (.error "wrong hint") ↔
      (∃ hashed, Recoverable (hashToPointNIST f fuel) transcript salt cs1 cs2 hashed) ∧
        ofWord hint * ∏ i ∈ Finset.range 512, s2Transform cs2 i ≠ 1) ∧
    (∀ hashed, (hintLoop (nttExpand cs1) (nttfw (nttExpand cs2)) (s2InverseNtt (nttfw (nttExpand cs2)) hint)
        hashed).1 = 0 ↔ ofWord hint * ∏ i ∈ Finset.range 512, s2Transform cs2 i = 1) ∧
    (ofWord hint * ∏ i ∈ Finset.range 512, s2Transform cs2 i = 1 → ∀ i < 512,
      WordReduced (rd (s2InverseNtt (nttfw (nttExpand cs2)) hint) i) ∧
        ofWord (rd (s2InverseNtt (nttfw (nttExpand cs2)) hint) i) * s2Transform cs2 i = 1) := by
  refine ⟨recoverWith_eq_wrongHint_iff _ K transcript salt cs1 cs2 hint,
    hintLoop_fst_eq_zero_iff (nttExpand cs1) (nttfw (nttExpand cs2)) hint, fun h i hi => ?_⟩
  have hspec := s2InverseNtt_spec (nttfw (nttExpand cs2)) hint hi
  exact ⟨hspec.1, hspec.2.trans h⟩

/-! ### The address -/

private theorem vecmulmod_eq_fill (a b : List Word) :
    vecmulmod a b = fill 0 512 (fun i => mulmod (rd a i) (rd b i) q) (List.replicate 512 0) := by
  simp only [vecmulmod, fill, Nat.zero_add, n]

private theorem vecmulmod_rep {a b : List Word} {f g : ℕ → Zq} (ha : ∀ e < 512, ofWord (rd a e) = f e)
    (hb : ∀ e < 512, ofWord (rd b e) = g e) : WordRep 512 (vecmulmod a b) (fun e => f e * g e) := by
  have hrd : ∀ e < 512, rd (vecmulmod a b) e = mulmod (rd a e) (rd b e) q := by
    intro e he
    rw [vecmulmod_eq_fill, rd_fill _ (by rw [List.length_replicate]), if_pos (by omega), Nat.sub_zero]
  refine ⟨by rw [vecmulmod_eq_fill, length_fill, List.length_replicate], fun e he => ?_, fun e he => ?_⟩
  · rw [hrd e he]
    exact (mulmod_spec _ _).1
  · rw [hrd e he, ofWord_mulmod, ha e he, hb e he]

/-- The array `hashed - s1`, where a slot above `q` is subtracted from `q` modulo `2 ^ 256`. -/
private theorem hintLoop_snd_rep (cs1 : List Word) {hashed : List Word} {c : ℕ → Zq} (hh : WordRep 512 hashed c)
    (s2 inv : List Word) :
    WordRep 512 (hintLoop (nttExpand cs1) s2 inv hashed).2 (fun e => c e + ofWord (q - slots cs1 e)) := by
  have hrd : ∀ e < 512, rd (hintLoop (nttExpand cs1) s2 inv hashed).2 e = addmod (rd hashed e) (q - slots cs1 e) q := by
    intro e he
    have hlen : e < hashed.length := by rwa [hh.length]
    rw [hintLoop_eq, (rd_foldl_hint (nttExpand cs1) s2 inv hashed 512 e).2, if_pos ⟨he, hlen⟩, rd_nttExpand cs1 he]
  refine ⟨?_, fun e he => ?_, fun e he => ?_⟩
  · rw [hintLoop_eq, (rd_foldl_hint (nttExpand cs1) s2 inv hashed 512 0).1, hh.length]
  · rw [hrd e he]
    exact (addmod_spec _ _).1
  · rw [hrd e he, (addmod_spec _ _).2, hh.val_rd e he]

/-- For the right hint the hashed array is the quotient of the transforms of `hashed - s1` and `s2`. -/
theorem recoveredKey_rep (cs1 : List Word) {cs2 hashed : List Word} {hint : Word} {c g : ℕ → Zq}
    (hh : WordRep 512 hashed c) (h1 : ofWord hint * ∏ i ∈ Finset.range 512, s2Transform cs2 i = 1)
    (hg : ∀ e < 512, fwd Crypto.twiddle 9 9 (fun e => c e + ofWord (q - slots cs1 e)) e = s2Transform cs2 e * g e) :
    WordRep 512 (vecmulmod (nttfw (hintLoop (nttExpand cs1) (nttfw (nttExpand cs2))
      (s2InverseNtt (nttfw (nttExpand cs2)) hint) hashed).2) (s2InverseNtt (nttfw (nttExpand cs2)) hint)) g := by
  have hntt := nttfw_rep (hintLoop_snd_rep cs1 hh (nttfw (nttExpand cs2))
    (s2InverseNtt (nttfw (nttExpand cs2)) hint))
  refine (vecmulmod_rep (fun e he => hntt.val_rd e he) fun e he => rfl).congr fun e he => ?_
  have hinv : ofWord (rd (s2InverseNtt (nttfw (nttExpand cs2)) hint) e) * s2Transform cs2 e = 1 :=
    (s2InverseNtt_spec (nttfw (nttExpand cs2)) hint he).2.trans h1
  rw [hg e he, mul_right_comm, mul_comm (s2Transform cs2 e), hinv, one_mul]

/-! ### The norm -/

/-- On reduced slots the norm loop adds the centred squares of the first 511 coefficients of `s1` and `s2`. -/
theorem toNat_epervierNorm {cs1 cs2 : List Word} (h1 : ∀ e < 512, WordReduced (slots cs1 e))
    (h2 : ∀ e < 512, WordReduced (slots cs2 e)) : (epervierNorm (nttExpand cs1) (nttExpand cs2)).toNat =
      ∑ e ∈ Finset.range 511, (normSq (ofWord (slots cs1 e)) + normSq (ofWord (slots cs2 e))) := by
  have h : offsets 32 16384 = (List.range 511).map fun i => 32 + 32 * i := offsets_eq_map 511
  have hloop : ∀ k ≤ 511, ((List.range k).foldl (fun norm i => normStep (normStep norm (rd (nttExpand cs1) i))
      (rd (nttExpand cs2) i)) 0).toNat =
        ∑ e ∈ Finset.range k, (normSq (ofWord (slots cs1 e)) + normSq (ofWord (slots cs2 e))) := by
    intro k hk
    induction k with
    | zero => rfl
    | succ k ih =>
      have ih := ih (by omega)
      have hle := Finset.sum_le_card_nsmul (Finset.range k)
        (fun e => normSq (ofWord (slots cs1 e)) + normSq (ofWord (slots cs2 e))) _
        (fun e _ => Nat.add_le_add (normSq_le _) (normSq_le _))
      have hle' := normSq_le (ofWord (slots cs1 k))
      rw [List.range_succ, List.foldl_append, Finset.sum_range_succ, ← ih, List.foldl_cons, List.foldl_nil,
        rd_nttExpand cs1 (by omega), rd_nttExpand cs2 (by omega)]
      rw [← ih, Finset.card_range, smul_eq_mul] at hle
      have hlt : ((List.range k).foldl (fun norm i => normStep (normStep norm (rd (nttExpand cs1) i))
          (rd (nttExpand cs2) i)) 0).toNat + 6144 ^ 2 < 2 ^ 128 := by
        have hk : k * (6144 ^ 2 + 6144 ^ 2) ≤ 511 * (6144 ^ 2 + 6144 ^ 2) := Nat.mul_le_mul_right _ (by omega)
        omega
      have hfirst := toNat_normStep (h1 k (by omega)) (lt_of_le_of_lt (Nat.le_add_right _ _) hlt)
      rw [toNat_normStep (h2 k (by omega)) (by rw [hfirst]; omega), hfirst, add_assoc]
  rw [epervierNorm, h, List.foldl_map]
  simp only [mload_offset]
  exact hloop 511 le_rfl

end DfVrf.Contracts
