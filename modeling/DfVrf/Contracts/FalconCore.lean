import DfVrf.Contracts.NttFalcon
import DfVrf.Crypto.Verify

/-!
# The Falcon verification equation in the contracts (`DFVRF_falcon_core.sol`)

`falcon_normalize` walks its arrays by memory offsets.  The first loop starts behind the length word, at offset
`32`, and stops at offset `16384`, hence it visits 511 of the 512 coefficients; the second loop compares an
absolute address with `16384`, hence it does not run for an array allocated further up.  `falconCore_iff` says
what is left of the norm test: only the first 511 squares of `c - s2 * h` are compared with the bound.

`falcon_checkPolynomialRange` unpacks the representation that is not packed, and admits `q`; `rangeExact_iff` says on
which polynomials its answer is right all the same.
-/

namespace DfVrf.Contracts

open InPlace Negacyclic Word

/-- The word at a byte offset from the start of an array, whose length occupies the first word. -/
def mload (a : List Word) (offset : ℕ) : Word := rd a ((offset - 32) / 32)

/-- The body of both norm loops: centre `s1i` and add its square. -/
def normStep (norm s1i : Word) : Word :=
  let cond := gt s1i qs1
  let s1i := cond * (q - s1i) + (1 - cond) * s1i
  norm + s1i * s1i

/-- `falcon_normalize`; `s1Ptr` is the address of `s1`. -/
def falconNormalize (s1Ptr : ℕ) (s1 s2 hashed : List Word) : Bool :=
  let norm := (offsets 32 16384).foldl
    (fun norm offset => normStep norm (addmod (mload hashed offset) (q - mload s1 offset) q)) 0
  let s1 := expandInto s1 s2
  -- the offsets of this loop are addresses, not offsets from `s1`
  let norm := (offsets (s1Ptr + 32) 16384).foldl (fun norm offset => normStep norm (mload s1 (offset - s1Ptr))) norm
  gt sigBound norm = 1

/-- `falcon_core`; `fmp` is the free memory pointer on entry. -/
def falconCore (fmp : ℕ) (s2 ntth hashed : List Word) : Bool :=
  if hashed.length ≠ 512 then false
  else if s2.length ≠ 32 then false
  else
    let s1 := halfmulExpandedResult s2 ntth
    falconNormalize (halfmulResultPtr fmp) s1 s2 hashed

/-! ### The norm loops -/

/-- The centred square of a reduced word. -/
private theorem normSq_ofWord {w : Word} (hw : WordReduced w) :
    normSq (ofWord w) = (if 6144 < w.toNat then 12289 - w.toNat else w.toNat) ^ 2 := by
  have hval : (ofWord w).val = w.toNat := ZMod.val_natCast_of_lt hw
  unfold WordReduced at hw
  rw [normSq, ZMod.valMinAbs_def_pos, hval]
  congr 1
  by_cases h : 6144 < w.toNat
  · rw [if_pos h, if_neg (show ¬ w.toNat ≤ 12289 / 2 by omega)]
    omega
  · rw [if_neg h, if_pos (show w.toNat ≤ 12289 / 2 by omega)]
    omega

theorem normSq_le (x : Zq) : normSq x ≤ 6144 ^ 2 :=
  Nat.pow_le_pow_left (ZMod.natAbs_valMinAbs_le x) 2

theorem toNat_normStep {norm w : Word} (hw : WordReduced w) (hn : norm.toNat < 2 ^ 128) :
    (normStep norm w).toNat = norm.toNat + normSq (ofWord w) := by
  have hsq := normSq_le (ofWord w)
  have hval : (gt w qs1 * (q - w) + (1 - gt w qs1) * w).toNat =
      if 6144 < w.toNat then 12289 - w.toNat else w.toNat := by
    have hlt : qs1 < w ↔ 6144 < w.toNat := BitVec.lt_def
    rw [gt]
    by_cases h : 6144 < w.toNat
    · have hsel : 1 * (q - w) + (1 - 1) * w = q - w := by simp
      rw [if_pos (hlt.2 h), if_pos h, hsel, toNat_sub_of_le (show w.toNat ≤ q.toNat from le_of_lt hw)]
      rfl
    · have hsel : 0 * (q - w) + (1 - 0) * w = w := by simp
      rw [if_neg (fun hc => h (hlt.1 hc)), if_neg h, hsel]
  rw [normSq_ofWord hw] at hsq ⊢
  rw [normStep, BitVec.toNat_add, BitVec.toNat_mul, hval, ← pow_two]
  generalize (if 6144 < w.toNat then 12289 - w.toNat else w.toNat) ^ 2 = s at hsq ⊢
  omega

/-- A norm loop over `k` reduced words adds their centred squares. -/
private theorem toNat_foldl_normStep {f : ℕ → Word} {k : ℕ} (hk : k ≤ 512) (hf : ∀ i < k, WordReduced (f i)) :
    ((List.range k).foldl (fun norm i => normStep norm (f i)) 0).toNat =
      ∑ i ∈ Finset.range k, normSq (ofWord (f i)) := by
  induction k with
  | zero => rfl
  | succ k ih =>
    have ih := ih (by omega) (fun i hi => hf i (by omega))
    have hle : ∑ i ∈ Finset.range k, normSq (ofWord (f i)) ≤ k * 6144 ^ 2 := by
      have := Finset.sum_le_card_nsmul (Finset.range k) (fun i => normSq (ofWord (f i))) _
        (fun i _ => normSq_le _)
      simpa using this
    rw [List.range_succ, List.foldl_append, Finset.sum_range_succ, ← ih]
    apply toNat_normStep (hf k (by omega))
    rw [ih]
    exact lt_of_le_of_lt (le_trans hle (Nat.mul_le_mul_right _ (show k ≤ 512 by omega))) (by norm_num)

theorem offsets_eq_map (k : ℕ) : offsets 32 (32 + 32 * k) = (List.range k).map (fun i => 32 + 32 * i) := by
  rw [offsets, show (32 + 32 * k - 32 + 31) / 32 = k by omega]
  apply List.ext_getElem
  · simp
  · intro i h1 h2
    simp

theorem offsets_of_le {start stop : ℕ} (h : stop ≤ start) : offsets start stop = [] := by
  rw [offsets, show (stop - start + 31) / 32 = 0 by omega]
  rfl

/-- With `s1` allocated from address `16352` on, the norm test sees the first 511 coefficients of `hashed - s1`
only. -/
theorem falconNormalize_iff {s1Ptr : ℕ} (hp : 16384 ≤ s1Ptr + 32) {s1 hashed : List Word} {f c : ℕ → Zq}
    (s2 : List Word) (hs : WordRep 512 s1 f) (hh : WordRep 512 hashed c) :
    falconNormalize s1Ptr s1 s2 hashed = true ↔ ∑ i ∈ Finset.range 511, normSq (c i - f i) < 34034726 := by
  -- the offsets `32, 64, …, 16352` are those of the entries `0, …, 510`
  have hmload : ∀ (a : List Word) i, mload a (32 + 32 * i) = rd a i := by
    intro a i
    rw [mload, show (32 + 32 * i - 32) / 32 = i by omega]
  have hred : ∀ i < 511, WordReduced (addmod (rd hashed i) (q - rd s1 i) q) := fun i hi =>
    (submod_spec _ (hs.ok_rd i (by omega))).1
  have hsum : ∀ i ∈ Finset.range 511, normSq (ofWord (addmod (rd hashed i) (q - rd s1 i) q)) =
      normSq (c i - f i) := by
    intro i hi
    rw [Finset.mem_range] at hi
    rw [(submod_spec _ (hs.ok_rd i (by omega))).2, hh.val_rd i (by omega), hs.val_rd i (by omega)]
  have hnorm := toNat_foldl_normStep (by omega) hred
  rw [Finset.sum_congr rfl hsum] at hnorm
  rw [falconNormalize, show (16384 : ℕ) = 32 + 32 * 511 from rfl, offsets_eq_map, offsets_of_le hp,
    List.foldl_map, decide_eq_true_iff]
  simp only [hmload, List.foldl_nil]
  rw [← hnorm, gt]
  split
  · rename_i h
    exact ⟨fun _ => h, fun _ => rfl⟩
  · rename_i h
    exact ⟨fun hc => absurd hc (by decide), fun hc => absurd hc h⟩

/-- The second loop does not run, so that `s2` does not enter the norm. -/
theorem falconNormalize_congr {s1Ptr : ℕ} (hp : 16384 ≤ s1Ptr + 32) (s1 s2 s2' hashed : List Word) :
    falconNormalize s1Ptr s1 s2 hashed = falconNormalize s1Ptr s1 s2' hashed := by
  simp only [falconNormalize, offsets_of_le hp, List.foldl_nil]

/-- The array `s1` of `falcon_core` lies beyond the addresses of the second loop. -/
theorem le_halfmulResultPtr (fmp : ℕ) : 16384 ≤ halfmulResultPtr fmp + 32 := by
  rw [halfmulResultPtr]
  omega

/-- `falcon_core` compares the first 511 squares of `c - s2 * h` with the bound, and nothing else. -/
theorem falconCore_iff (fmp : ℕ) {s2 ntth hashed : List Word} {c g : ℕ → Zq} (hs : s2.length = 32)
    (hb : ∀ e < 512, ofWord (slots ntth e) = fwd Crypto.twiddle 9 9 g e) (hh : WordRep 512 hashed c) :
    falconCore fmp s2 ntth hashed = true ↔
      ∑ i ∈ Finset.range 511, normSq (c i - mulMod 512 (fun e => ofWord (slots s2 e)) g i) < 34034726 := by
  rw [falconCore, if_neg (by simp [hh.length]), if_neg (by simp [hs])]
  exact falconNormalize_iff (le_halfmulResultPtr fmp) s2 (halfmul_rep s2 hb) hh

/-! ### The range check -/

/-- The loop of `falcon_checkPolynomialRange`, which is left at the first word above `q`. -/
def checkRangeLoop : List Word → Bool
  | [] => true
  | w :: a => if gt w q ≠ 0 then false else checkRangeLoop a

/-- `falcon_checkPolynomialRange`. -/
def falconCheckPolynomialRange (polynomial : List Word) (isCompact : Bool) : Bool :=
  let a := if isCompact = false then nttExpand polynomial else polynomial
  checkRangeLoop a

/-- A polynomial in one of the two representations: 32 packed words, or 512 words. -/
structure FlaggedPoly where
  words : List Word
  isCompact : Bool
  length : words.length = if isCompact then 32 else 512

/-- The coefficient `e` of a polynomial. -/
def FlaggedPoly.coeff (p : FlaggedPoly) (e : ℕ) : Word := if p.isCompact then slots p.words e else rd p.words e

/-- The check is exact: it accepts the polynomials whose coefficients are below `q`. -/
def RangeExact (p : FlaggedPoly) : Prop :=
  falconCheckPolynomialRange p.words p.isCompact = true ↔ ∀ e < 512, WordReduced (p.coeff e)

theorem gt_ne_zero_iff (a b : Word) : gt a b ≠ 0 ↔ b.toNat < a.toNat := by
  rw [gt, ← BitVec.lt_def]
  split
  · rename_i h
    exact ⟨fun _ => h, fun _ => by decide⟩
  · rename_i h
    exact ⟨fun hc => absurd rfl hc, fun hc => absurd hc h⟩

theorem checkRangeLoop_iff (a : List Word) : checkRangeLoop a = true ↔ ∀ w ∈ a, w.toNat ≤ 12289 := by
  induction a with
  | nil => simp [checkRangeLoop]
  | cons w a ih =>
    have hq : q.toNat = 12289 := rfl
    unfold checkRangeLoop
    rw [List.forall_mem_cons]
    by_cases h : 12289 < w.toNat
    · rw [if_pos ((gt_ne_zero_iff w q).2 h)]
      exact ⟨fun hc => absurd hc (by simp), fun hc => absurd hc.1 (by omega)⟩
    · rw [if_neg (fun hc => h ((gt_ne_zero_iff w q).1 hc)), ih, and_iff_right (by omega)]

/-- A property of the words of an array, by index. -/
private theorem forall_mem_iff_rd {a : List Word} {k : ℕ} (hl : a.length = k) (P : Word → Prop) :
    (∀ w ∈ a, P w) ↔ ∀ e < k, P (rd a e) := by
  subst hl
  constructor
  · intro h e he
    exact h _ (mem_rd he)
  · intro h w hw
    obtain ⟨i, hi, rfl⟩ := List.getElem_of_mem hw
    rw [← rd_eq_getElem hi]
    exact h i hi

/-- A slot of the first words is at most its word. -/
private theorem slots_le_rd {words : List Word} (hl : 32 ≤ words.length) {e : ℕ} (he : e < 512) :
    (slots words e).toNat ≤ (rd words (e / 16)).toNat ∧ rd words (e / 16) ∈ words :=
  ⟨slot_le _ _, mem_rd (by omega)⟩

/-- The check of words that are not packed reads the slots of the first 32. -/
private theorem falconCheckPolynomialRange_expanded (words : List Word) :
    falconCheckPolynomialRange words false = true ↔ ∀ e < 512, (slots words e).toNat ≤ 12289 := by
  unfold falconCheckPolynomialRange
  rw [if_pos rfl, checkRangeLoop_iff, forall_mem_iff_rd (length_nttExpand words) fun w => w.toNat ≤ 12289]
  refine forall₂_congr fun e he => ?_
  rw [rd_nttExpand _ he]

/-- A packed polynomial is answered for rightly if all words are below `q`, so that only the lowest coefficients of the
words are used, or some word is above `q` and some coefficient is not below it. -/
private theorem rangeExact_compact {words : List Word} (hl : words.length = 32) :
    RangeExact ⟨words, true, hl⟩ ↔ (∀ w ∈ words, w.toNat < 12289) ∨
      ((∃ w ∈ words, 12289 < w.toNat) ∧ ∃ e < 512, 12289 ≤ (slots words e).toNat) := by
  have hcode : falconCheckPolynomialRange words true = true ↔ ∀ w ∈ words, w.toNat ≤ 12289 := checkRangeLoop_iff words
  -- the lowest slot of a word `q` is not reduced
  have hlow : ∀ w ∈ words, w.toNat = 12289 → ∃ e < 512, 12289 ≤ (slots words e).toNat := by
    intro w hw hq
    obtain ⟨i, hi, rfl⟩ := List.getElem_of_mem hw
    refine ⟨16 * i, by omega, ?_⟩
    rw [slots, Nat.mul_div_cancel_left i (by omega), Nat.mul_mod_right, rd_eq_getElem hi, toNat_slot, hq]
    decide
  unfold RangeExact FlaggedPoly.coeff WordReduced
  simp only [if_true]
  rw [hcode]
  constructor
  · intro h
    by_cases hle : ∀ w ∈ words, w.toNat ≤ 12289
    · left
      intro w hw
      by_contra hc
      obtain ⟨e, he, hbig⟩ := hlow w hw (by have := hle w hw; omega)
      have hsmall := h.1 hle e he
      omega
    · right
      have hne : ¬ ∀ e < 512, (slots words e).toNat < 12289 := fun hc => hle (h.2 hc)
      push Not at hle hne
      exact ⟨hle, hne⟩
  · rintro (h | ⟨⟨w, hw, hbig⟩, e, he, hnot⟩)
    · refine iff_of_true (fun w hw => le_of_lt (h w hw)) fun e he => ?_
      obtain ⟨hle, hmem⟩ := slots_le_rd (show 32 ≤ words.length by omega) he
      exact lt_of_le_of_lt hle (h _ hmem)
    · refine iff_of_false (fun hc => ?_) fun hc => ?_
      · have := hc w hw
        omega
      · have := hc e he
        omega

/-- A polynomial of 512 words is answered for rightly if all words are below `q`, or some slot of the first 32 words is
above `q`. -/
private theorem rangeExact_expanded {words : List Word} (hl : words.length = 512) :
    RangeExact ⟨words, false, hl⟩ ↔ (∀ w ∈ words, w.toNat < 12289) ∨ ∃ e < 512, 12289 < (slots words e).toNat := by
  unfold RangeExact FlaggedPoly.coeff WordReduced
  simp only [Bool.false_eq_true, if_false]
  rw [falconCheckPolynomialRange_expanded words, ← forall_mem_iff_rd hl fun w => w.toNat < 12289]
  constructor
  · intro h
    by_cases hle : ∀ e < 512, (slots words e).toNat ≤ 12289
    · exact .inl (h.1 hle)
    · push Not at hle
      exact .inr hle
  · rintro (h | ⟨e, he, hbig⟩)
    · refine iff_of_true (fun e he => ?_) h
      obtain ⟨hle, hmem⟩ := slots_le_rd (show 32 ≤ words.length by omega) he
      have := h _ hmem
      omega
    · refine iff_of_false (fun hc => ?_) fun hc => ?_
      · have := hc e he
        omega
      · obtain ⟨hle, hmem⟩ := slots_le_rd (show 32 ≤ words.length by omega) he
        have := hc _ hmem
        omega

/-- When the range check is exact. -/
theorem rangeExact_iff (p : FlaggedPoly) : RangeExact p ↔ (∀ w ∈ p.words, w.toNat < 12289) ∨
    if p.isCompact then (∃ w ∈ p.words, 12289 < w.toNat) ∧ ∃ e < 512, 12289 ≤ (slots p.words e).toNat
    else ∃ e < 512, 12289 < (slots p.words e).toNat := by
  rcases p with ⟨words, _ | _, hl⟩
  · simpa using rangeExact_expanded hl
  · simpa using rangeExact_compact hl

/-- 32 packed words, all of whose coefficients are 1. -/
def allOnes : FlaggedPoly where
  words := List.replicate 32 (BitVec.ofNat 256 (∑ j ∈ Finset.range 16, 2 ^ (16 * j)))
  isCompact := true
  length := List.length_replicate

/-- 512 words, the first of which is `q`. -/
def firstWordQ : FlaggedPoly where
  words := q :: List.replicate 511 0
  isCompact := false
  length := by rw [List.length_cons, List.length_replicate]; rfl

/-- The packed polynomial with all coefficients 1 is refused, and the coefficient `q` is admitted. -/
theorem not_rangeExact : ¬ RangeExact allOnes ∧ ¬ RangeExact firstWordQ := by
  constructor
  · unfold RangeExact WordReduced
    decide +kernel
  · intro h
    have hle : ∀ w ∈ firstWordQ.words, w.toNat ≤ 12289 := by
      intro w hw
      rcases List.mem_cons.1 hw with rfl | hw
      · exact le_of_eq rfl
      · rw [List.eq_of_mem_replicate hw]
        decide
    have hcode : falconCheckPolynomialRange firstWordQ.words firstWordQ.isCompact = true := by
      refine (falconCheckPolynomialRange_expanded _).2 fun e he => ?_
      obtain ⟨hslot, hmem⟩ := slots_le_rd (by rw [firstWordQ.length]; decide) he
      exact hslot.trans (hle _ hmem)
    exact absurd (h.1 hcode 0 (by decide)) (by unfold WordReduced; decide)

end DfVrf.Contracts
