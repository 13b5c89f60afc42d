import DfVrf.Lib.Word
import Mathlib.Data.Vector.Defs

/-!
# Constants and packing of the contracts (`DFVRF_falcon_utils.sol`)

A polynomial is an array of 512 words, or packed sixteen coefficients to a word in 32 words.  The two conversions are
inverse to each other (`nttExpand_nttCompact`, `nttCompact_nttExpand`).
-/

namespace DfVrf.Contracts

open InPlace Word

/-- The degree of the ring. -/
def n : ℕ := 512

/-- The inverse of `n` modulo `q`. -/
def nm1modq : Word := 12265

/-- The maximum allowed squared norm of a signature. -/
def sigBound : Word := 34034726

def q : Word := 12289

/-- Half of `q`, for the centred reduction. -/
def qs1 : Word := 6144

/-- The rejection bound of the sampling, `5 * q`. -/
def kq : Word := 61445

/-- The loops of `_ZKNOX_NTT_Expand`, which write the slots of `a` into `b`. -/
def expandInto (b a : List Word) : List Word :=
  (List.range 32).foldl (fun b i =>
    let ai := rd a i
    (List.range 16).foldl (fun b j => b.set (j + (i <<< 4)) (slot ai j)) b) b

/-- `_ZKNOX_NTT_Expand`. -/
def nttExpand (a : List Word) : List Word := expandInto (List.replicate 512 0) a

/-- The loop of `_ZKNOX_NTT_Compact`, which adds `a[i]` to the word `i / 16` of `b`, for the first `k` indices. -/
def compactInto (a : List Word) (k : ℕ) (b : List Word) : List Word :=
  (List.range k).foldl (fun b i =>
    let bi := i >>> 4
    b.set bi (rd b bi ^^^ (rd a i <<< ((i &&& 0xf) <<< 4)))) b

/-- `_ZKNOX_NTT_Compact`. -/
def nttCompact (a : List Word) : List Word := compactInto a 512 (List.replicate 32 0)

/-- The loop of `_ZKNOX_NTT_Decompress` over the bytes from the offset on; an access behind the end of the buffer is a
panic. -/
def nttDecompressLoop : List UInt8 → UInt32 → ℕ → List Word → Except String (UInt32 × ℕ × List Word)
  | [], acc, accLen, x => if x.length < n then .error "Panic(0x32)" else .ok (acc, accLen, x)
  | b :: bs, acc, accLen, x =>
    if x.length < n then
      let acc := (acc <<< 8) ||| b.toUInt32
      let accLen := accLen + 8
      if accLen ≥ 14 then
        let accLen := accLen - 14
        let w := (acc >>> UInt32.ofNat accLen) &&& 0x3FFF
        if w ≥ 12289 then .error "wrong coeff"
        else nttDecompressLoop bs acc accLen (x ++ [BitVec.ofNat 256 w.toNat])
      else nttDecompressLoop bs acc accLen x
    else .ok (acc, accLen, x)

/-- `_ZKNOX_NTT_Decompress`; an error is the data with which the call reverts. -/
def nttDecompress (buf : List UInt8) (offset : ℕ) : Except String (List Word) :=
  match nttDecompressLoop (buf.drop offset) 0 0 [] with
  | .error err => .error err
  | .ok (acc, accLen, x) =>
    if BitVec.ofNat 256 acc.toNat &&& ((1 <<< accLen) - 1) ≠ (0 : Word) then .error "" else .ok x

private theorem expandInto_eq_fillRows (b a : List Word) :
    expandInto b a = fillRows 32 16 (fun i j => slot (rd a i) j) b := by
  simp only [expandInto, fillRows, fill, Nat.shiftLeft_eq, show 2 ^ 4 = 16 from rfl, Nat.add_comm,
    Nat.mul_comm 16]

private theorem length_expandInto (b a : List Word) : (expandInto b a).length = b.length := by
  rw [expandInto_eq_fillRows, length_fillRows]

private theorem rd_expandInto {b : List Word} (hb : b.length = 512) (a : List Word) {e : ℕ} (he : e < 512) :
    rd (expandInto b a) e = slots a e := by
  rw [expandInto_eq_fillRows, rd_fillRows (by omega) _ (by omega) he, slots]

theorem length_nttExpand (a : List Word) : (nttExpand a).length = 512 := by
  rw [nttExpand, length_expandInto, List.length_replicate]

theorem rd_nttExpand (a : List Word) {e : ℕ} (he : e < 512) : rd (nttExpand a) e = slots a e :=
  rd_expandInto List.length_replicate a he

/-! ### Compacting -/

private theorem compactInto_succ (a : List Word) (k : ℕ) (b : List Word) : compactInto a (k + 1) b =
    (compactInto a k b).set (k / 16) (rd (compactInto a k b) (k / 16) ^^^ (rd a k <<< ((k % 16) <<< 4))) := by
  rw [compactInto, compactInto, List.range_succ, List.foldl_append, List.foldl_cons, List.foldl_nil,
    Nat.shiftRight_eq_div_pow, show (0xf : ℕ) = 2 ^ 4 - 1 from rfl, Nat.and_two_pow_sub_one_eq_mod]

private theorem length_compactInto (a : List Word) (k : ℕ) (b : List Word) : (compactInto a k b).length = b.length := by
  induction k with
  | zero => rfl
  | succ k ih => rw [compactInto_succ, List.length_set, ih]

/-- After `k` iterations on words of zeros the first `k` slots are filled. -/
private theorem slots_compactInto {a : List Word} (ha : ∀ e < 512, (rd a e).toNat < 2 ^ 16) {k : ℕ} (hk : k ≤ 512)
    {e : ℕ} (he : e < 512) : slots (compactInto a k (List.replicate 32 0)) e = if e < k then rd a e else 0 := by
  induction k with
  | zero =>
    rw [if_neg (by omega), slots, compactInto, List.range_zero, List.foldl_nil, rd_replicate (by omega)]
    simp [slot]
  | succ k ih =>
    have ih := ih (by omega)
    have hl : k / 16 < (compactInto a k (List.replicate 32 0)).length := by
      rw [length_compactInto, List.length_replicate]
      omega
    rw [compactInto_succ, slots, rd_set]
    by_cases hrow : k / 16 = e / 16
    · rw [if_pos ⟨hrow, hl⟩, slot_xor_shift _ (ha k (by omega)) (by omega), hrow]
      rw [slots] at ih
      by_cases hcol : e % 16 = k % 16
      · obtain rfl : e = k := by omega
        rw [if_pos rfl, if_pos (by omega), ih, if_neg (by omega)]
        exact BitVec.zero_xor
      · rw [if_neg hcol, ih]
        have hlt : e < k ↔ e < k + 1 := by omega
        simp only [hlt]
    · rw [if_neg fun h => hrow h.1]
      have hlt : e < k ↔ e < k + 1 := by omega
      rw [slots] at ih
      rw [ih]
      simp only [hlt]

theorem length_nttCompact (a : List Word) : (nttCompact a).length = 32 := by
  rw [nttCompact, length_compactInto, List.length_replicate]

/-- The slots of the compacted array are the values of the array, if they fit in 16 bits. -/
theorem slots_nttCompact {a : List Word} (ha : ∀ e < 512, (rd a e).toNat < 2 ^ 16) {e : ℕ} (he : e < 512) :
    slots (nttCompact a) e = rd a e := by
  rw [nttCompact, slots_compactInto ha (le_refl 512) he, if_pos he]

/-! ### Round trips -/

/-- 512 words that fit their slots. -/
structure SlotValues where
  words : List Word
  length : words.length = 512
  fits : ∀ x ∈ words, x.toNat < 2 ^ 16

private theorem SlotValues.rd_lt (v : SlotValues) {e : ℕ} (he : e < 512) : (rd v.words e).toNat < 2 ^ 16 :=
  v.fits _ (mem_rd (by rw [v.length]; exact he))

theorem nttExpand_nttCompact (v : SlotValues) : nttExpand (nttCompact v.words) = v.words := by
  apply ext_rd
  · rw [length_nttExpand, v.length]
  · intro e he
    rw [length_nttExpand] at he
    rw [rd_nttExpand _ he, slots_nttCompact (fun i hi => v.rd_lt hi) he]

theorem nttCompact_nttExpand (w : List.Vector Word 32) : nttCompact (nttExpand w.1) = w.1 := by
  have hfits : ∀ e < 512, (rd (nttExpand w.1) e).toNat < 2 ^ 16 := by
    intro e he
    rw [rd_nttExpand _ he]
    exact slot_lt _ _
  apply eq_of_slots
  · rw [length_nttCompact, w.2]
  · intro e he
    rw [length_nttCompact] at he
    rw [slots_nttCompact hfits (by omega), rd_nttExpand _ (by omega)]

end DfVrf.Contracts
