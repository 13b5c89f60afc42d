import DfVrf.Contracts.NttFalcon
import DfVrf.Crypto.Verify

/-!
# Packing of coefficients for the contracts (`cmd/vrfjson/main.go`)

The fixture tool packs 16 coefficients into a word, the first in the lowest 16 bits, a negative coefficient being
replaced by its representative in `[0, q)`.  Reading the slots of the packed words gives the coefficients back
(`slots_packInt16Coeffs`, `slots_packUint16Coeffs`).

* `packing_lossless`: the packers of Go and of the contracts and the unpacker of the contracts use one order of slots.
-/

namespace DfVrf.Go

open InPlace Negacyclic Word Contracts Crypto

/-- The slot of a coefficient in `packInt16Coeffs`. -/
def slotOfInt16 (x : Int16) : Word :=
  let v := x.toInt
  let v := if v < 0 then v + 12289 else v
  BitVec.ofInt 256 v

/-- `packInt16Coeffs`; the slots behind the last coefficient stay empty. -/
def packInt16Coeffs (coeffs : List Int16) : List Word :=
  let numWords := (coeffs.length + 15) / 16
  (List.range numWords).map fun i =>
    pack (fun j => slotOfInt16 (rd coeffs (i * 16 + j))) (min 16 (coeffs.length - i * 16))

/-- `packUint16Coeffs`. -/
def packUint16Coeffs (coeffs : List UInt16) : List Word :=
  packInt16Coeffs (coeffs.map fun v => v.toInt16)

private theorem toNat_slotOfInt16 {x : Int16} (h1 : -12289 < x.toInt) (h2 : x.toInt < 12289) :
    (slotOfInt16 x).toNat = (if x.toInt < 0 then x.toInt + 12289 else x.toInt).toNat := by
  rw [slotOfInt16, BitVec.toNat_ofInt]
  congr 1
  split <;> omega

private theorem slotOfInt16_lt {x : Int16} (h1 : -12289 < x.toInt) (h2 : x.toInt < 12289) :
    WordReduced (slotOfInt16 x) := by
  rw [WordReduced, toNat_slotOfInt16 h1 h2]
  split <;> omega

/-- The slot represents the coefficient. -/
theorem ofWord_slotOfInt16 {x : Int16} (h1 : -12289 < x.toInt) (h2 : x.toInt < 12289) :
    ofWord (slotOfInt16 x) = ofInt16 x := by
  have hq : ((12289 : ℤ) : Zq) = 0 := by decide
  have hcast : ((slotOfInt16 x).toNat : ℤ) = if x.toInt < 0 then x.toInt + 12289 else x.toInt := by
    rw [toNat_slotOfInt16 h1 h2]
    split <;> omega
  have h := congrArg (Int.cast : ℤ → Zq) hcast
  rw [Int.cast_natCast] at h
  rw [ofWord, h, ofInt16]
  split
  · rw [Int.cast_add, hq, add_zero]
  · rfl

theorem length_packInt16Coeffs {coeffs : List Int16} (hl : coeffs.length = 512) :
    (packInt16Coeffs coeffs).length = 32 := by
  simp [packInt16Coeffs, hl]

/-- The slots of the packed words are those of the coefficients. -/
theorem slots_packInt16Coeffs {coeffs : List Int16} (hl : coeffs.length = 512)
    (hx : ∀ x ∈ coeffs, -12289 < x.toInt ∧ x.toInt < 12289) {e : ℕ} (he : e < 512) :
    slots (packInt16Coeffs coeffs) e = slotOfInt16 (rd coeffs e) := by
  have hword : rd (packInt16Coeffs coeffs) (e / 16) =
      pack (fun j => slotOfInt16 (rd coeffs (e / 16 * 16 + j))) 16 := by
    rw [packInt16Coeffs, hl]
    rw [rd_map_range _ (show e / 16 < (512 + 15) / 16 by omega), show min 16 (512 - e / 16 * 16) = 16 by omega]
  rw [slots, hword, slot_pack _ (Nat.mod_lt e (by omega)), Nat.div_add_mod']
  intro j hj
  obtain ⟨h1, h2⟩ := hx _ (mem_rd (show e / 16 * 16 + j < coeffs.length by omega))
  exact lt_trans (slotOfInt16_lt h1 h2) (by omega)

private theorem toInt_toInt16_of_lt {v : UInt16} (hv : v.toNat < 2 ^ 15) : v.toInt16.toInt = v.toNat := by
  have h := BitVec.toInt_eq_toNat_of_lt (x := v.toBitVec) (by rw [UInt16.toNat_toBitVec]; omega)
  exact h

theorem slots_packUint16Coeffs {coeffs : List UInt16} (hl : coeffs.length = 512)
    (hx : ∀ x ∈ coeffs, x.toNat < 12289) {e : ℕ} (he : e < 512) :
    (slots (packUint16Coeffs coeffs) e).toNat = (rd coeffs e).toNat := by
  have hmap : ∀ x ∈ coeffs.map (fun v => v.toInt16), -12289 < x.toInt ∧ x.toInt < 12289 := by
    intro x hmem
    obtain ⟨v, hv, rfl⟩ := List.mem_map.1 hmem
    have := hx v hv
    rw [toInt_toInt16_of_lt (by omega)]
    omega
  have hrd := hx _ (mem_rd (show e < coeffs.length by omega))
  have hval := toInt_toInt16_of_lt (show (rd coeffs e).toNat < 2 ^ 15 by omega)
  rw [packUint16Coeffs, slots_packInt16Coeffs (by rw [List.length_map, hl]) hmap he,
    rd_map _ (by rw [hl]; exact he), toNat_slotOfInt16 (by omega) (by omega), hval]
  split <;> omega

/-! ### The packers and the unpacker -/

/-- 512 coefficients between `-q` and `q`. -/
structure SignedPoly where
  coeffs : List Int16
  length : coeffs.length = 512
  bound : ∀ x ∈ coeffs, -12289 < x.toInt ∧ x.toInt < 12289

/-- The value of a slot is the remainder of the coefficient. -/
private theorem toNat_slotOfInt16_eq_emod {x : Int16} (h1 : -12289 < x.toInt) (h2 : x.toInt < 12289) :
    ((slotOfInt16 x).toNat : ℤ) = x.toInt % 12289 := by
  rw [toNat_slotOfInt16 h1 h2]
  split <;> omega

/-- `packInt16Coeffs` is `_ZKNOX_NTT_Compact` of the slot values. -/
private theorem packInt16Coeffs_eq_nttCompact (s2 : SignedPoly) :
    packInt16Coeffs s2.coeffs = nttCompact (s2.coeffs.map slotOfInt16) := by
  have hrd : ∀ e < 512, rd (s2.coeffs.map slotOfInt16) e = slotOfInt16 (rd s2.coeffs e) := by
    intro e he
    exact rd_map _ (by rw [s2.length]; exact he)
  have hfits : ∀ e < 512, (rd (s2.coeffs.map slotOfInt16) e).toNat < 2 ^ 16 := by
    intro e he
    obtain ⟨h1, h2⟩ := s2.bound _ (mem_rd (show e < s2.coeffs.length by rw [s2.length]; exact he))
    rw [hrd e he]
    exact lt_trans (slotOfInt16_lt h1 h2) (by omega)
  apply eq_of_slots
  · rw [length_packInt16Coeffs s2.length, length_nttCompact]
  · intro e he
    rw [length_packInt16Coeffs s2.length] at he
    rw [slots_packInt16Coeffs s2.length s2.bound (by omega), slots_nttCompact hfits (by omega), hrd e (by omega)]

/-- Unpacking inverts packing on 512 values that fit their slots, packing inverts unpacking on 32 words, and what the
fixture tool packs is unpacked to the coefficients modulo `q`. -/
theorem packing_lossless (v : SlotValues) (w : List.Vector Word 32) (s2 : SignedPoly) :
    nttExpand (nttCompact v.words) = v.words ∧ nttCompact (nttExpand w.1) = w.1 ∧
    packInt16Coeffs s2.coeffs = nttCompact (s2.coeffs.map slotOfInt16) ∧
    (nttExpand (packInt16Coeffs s2.coeffs)).length = 512 ∧
    ∀ i < 512, ((rd (nttExpand (packInt16Coeffs s2.coeffs)) i).toNat : ℤ) = (rd s2.coeffs i).toInt % 12289 ∧
      WordReduced (rd (nttExpand (packInt16Coeffs s2.coeffs)) i) := by
  refine ⟨nttExpand_nttCompact v, nttCompact_nttExpand w, packInt16Coeffs_eq_nttCompact s2, length_nttExpand _, ?_⟩
  intro i hi
  obtain ⟨h1, h2⟩ := s2.bound _ (mem_rd (show i < s2.coeffs.length by rw [s2.length]; exact hi))
  rw [rd_nttExpand _ hi, slots_packInt16Coeffs s2.length s2.bound hi]
  exact ⟨toNat_slotOfInt16_eq_emod h1 h2, slotOfInt16_lt h1 h2⟩

end DfVrf.Go
