import DfVrf.Lib.InPlace
import Mathlib.Data.Nat.Bitwise

/-!
# 256-bit machine words

Words of a stack machine, the modular operations that work on the full sum or product before reducing, and the
packing of sixteen 16-bit values into one word, the first value in the low bits.

* `eq_of_slot`: a word is determined by its sixteen slots.
* `slot_pack`: the word packed from values below `2 ^ 16` has these values as its slots.
-/

/-- A machine word. -/
abbrev Word := BitVec 256

/-- The address of an account. -/
abbrev Address := BitVec 160

namespace Word

open InPlace

/-- `(a + b) mod m` on the exact sum; zero for `m = 0`. -/
def addmod (a b m : Word) : Word := if m = 0 then 0 else BitVec.ofNat 256 ((a.toNat + b.toNat) % m.toNat)

/-- `(a * b) mod m` on the exact product; zero for `m = 0`. -/
def mulmod (a b m : Word) : Word := if m = 0 then 0 else BitVec.ofNat 256 (a.toNat * b.toNat % m.toNat)

/-- The comparison `a > b` as a word. -/
def gt (a b : Word) : Word := if b < a then 1 else 0

/-- The offsets of a loop that starts at `start` and advances by one word while it is below `stop`. -/
def offsets (start stop : ℕ) : List ℕ := List.range' start ((stop - start + 31) / 32) 32

theorem toNat_addmod (a b : Word) {m : Word} (hm : m ≠ 0) :
    (addmod a b m).toNat = (a.toNat + b.toNat) % m.toNat := by
  have hpos : 0 < m.toNat := Nat.pos_of_ne_zero fun h => hm (BitVec.eq_of_toNat_eq h)
  rw [addmod, if_neg hm, BitVec.toNat_ofNat]
  exact Nat.mod_eq_of_lt (lt_trans (Nat.mod_lt _ hpos) m.isLt)

theorem toNat_mulmod (a b : Word) {m : Word} (hm : m ≠ 0) :
    (mulmod a b m).toNat = a.toNat * b.toNat % m.toNat := by
  have hpos : 0 < m.toNat := Nat.pos_of_ne_zero fun h => hm (BitVec.eq_of_toNat_eq h)
  rw [mulmod, if_neg hm, BitVec.toNat_ofNat]
  exact Nat.mod_eq_of_lt (lt_trans (Nat.mod_lt _ hpos) m.isLt)

theorem toNat_sub_of_le {a b : Word} (h : b.toNat ≤ a.toNat) : (a - b).toNat = a.toNat - b.toNat := by
  rw [BitVec.toNat_sub]
  have := a.isLt
  have := b.isLt
  omega

/-! ### Slots -/

/-- The 16-bit slot `j` of a word. -/
def slot (w : Word) (j : ℕ) : Word := (w >>> (j <<< 4)) &&& 0xffff

theorem toNat_slot (w : Word) (j : ℕ) : (slot w j).toNat = w.toNat / 2 ^ (16 * j) % 2 ^ 16 := by
  rw [slot, BitVec.toNat_and, BitVec.toNat_ushiftRight, show (0xffff : Word).toNat = 2 ^ 16 - 1 from rfl,
    Nat.and_two_pow_sub_one_eq_mod, Nat.shiftRight_eq_div_pow, Nat.shiftLeft_eq, Nat.mul_comm j]

theorem slot_lt (w : Word) (j : ℕ) : (slot w j).toNat < 2 ^ 16 := by
  rw [toNat_slot]
  exact Nat.mod_lt _ (by omega)

/-- A slot is at most the word. -/
theorem slot_le (w : Word) (j : ℕ) : (slot w j).toNat ≤ w.toNat := by
  rw [toNat_slot]
  exact (Nat.mod_le _ _).trans (Nat.div_le_self _ _)

private theorem getLsbD_slot (w : Word) (j i : ℕ) :
    (slot w j).getLsbD i = (decide (i < 16) && w.getLsbD (j * 16 + i)) := by
  have hmask : (0xffff : Word).getLsbD i = decide (i < 16) := by
    rw [BitVec.getLsbD, show (0xffff : Word).toNat = 2 ^ 16 - 1 from rfl, Nat.testBit_two_pow_sub_one]
  rw [slot, BitVec.getLsbD_and, BitVec.getLsbD_ushiftRight, Nat.shiftLeft_eq, show 2 ^ 4 = 16 from rfl, hmask,
    Bool.and_comm]

/-- A value below `2 ^ 16` has no bit from 16 on. -/
private theorem getLsbD_of_lt {x : Word} (hx : x.toNat < 2 ^ 16) {i : ℕ} (hi : 16 ≤ i) : x.getLsbD i = false := by
  rw [BitVec.getLsbD]
  exact Nat.testBit_lt_two_pow (lt_of_lt_of_le hx (Nat.pow_le_pow_right (by omega) hi))

/-- A word is determined by its sixteen slots. -/
theorem eq_of_slot {a b : Word} (h : ∀ j < 16, slot a j = slot b j) : a = b := by
  apply BitVec.eq_of_toNat_eq
  apply Nat.eq_of_testBit_eq
  intro i
  by_cases hi : i < 256
  · -- the bit `i` is a bit of the slot `i / 16`
    have hs := congrArg (fun w : Word => w.toNat.testBit (i % 16)) (h (i / 16) (by omega))
    simp only [toNat_slot, Nat.testBit_mod_two_pow, Nat.testBit_div_two_pow] at hs
    rw [show i % 16 + 16 * (i / 16) = i by omega] at hs
    simpa [Nat.mod_lt i (show 0 < 16 by omega)] using hs
  · have hp := Nat.pow_le_pow_right (show 0 < 2 by omega) (show 256 ≤ i by omega)
    rw [Nat.testBit_lt_two_pow (lt_of_lt_of_le a.isLt hp), Nat.testBit_lt_two_pow (lt_of_lt_of_le b.isLt hp)]

/-- The word with the slots `f 0, …, f (k - 1)`, as an or of shifted values. -/
def pack (f : ℕ → Word) (k : ℕ) : Word := (List.range k).foldl (fun w j => w ||| (f j <<< (j * 16))) 0

private theorem pack_succ (f : ℕ → Word) (k : ℕ) : pack f (k + 1) = pack f k ||| (f k <<< (k * 16)) := by
  rw [pack, pack, List.range_succ, List.foldl_append]
  rfl

private theorem getLsbD_pack {f : ℕ → Word} (hf : ∀ j < 16, (f j).toNat < 2 ^ 16) {k : ℕ} (hk : k ≤ 16) (i : ℕ) :
    (pack f k).getLsbD i = (decide (i < 16 * k) && (f (i / 16)).getLsbD (i % 16)) := by
  induction k with
  | zero => simp [pack]
  | succ k ih =>
    rw [pack_succ, BitVec.getLsbD_or, ih (by omega), BitVec.getLsbD_shiftLeft]
    by_cases h1 : i < k * 16
    · simp [h1, show i < 16 * k by omega, show i < 16 * (k + 1) by omega]
    · by_cases h2 : i < 16 * (k + 1)
      · have hd : i / 16 = k := by omega
        have hm : i - k * 16 = i % 16 := by omega
        simp [h1, h2, show ¬ i < 16 * k by omega, show i < 256 by omega, hd, hm]
      · have hz := getLsbD_of_lt (hf k (by omega)) (show 16 ≤ i - k * 16 by omega)
        simp [h1, h2, show ¬ i < 16 * k by omega, hz]

/-- Packing and reading a slot. -/
theorem slot_pack {f : ℕ → Word} (hf : ∀ j < 16, (f j).toNat < 2 ^ 16) {j : ℕ} (hj : j < 16) :
    slot (pack f 16) j = f j := by
  apply BitVec.eq_of_getLsbD_eq
  intro i hi
  rw [getLsbD_slot, getLsbD_pack hf (le_refl 16)]
  by_cases h : i < 16
  · have hd : (j * 16 + i) / 16 = j := by omega
    have hm : (j * 16 + i) % 16 = i := by omega
    simp [h, hd, hm, show j * 16 + i < 256 by omega]
  · simp [h, getLsbD_of_lt (hf j hj) (show 16 ≤ i by omega)]

/-- Adding a value below `2 ^ 16` at the slot `k`. -/
theorem slot_xor_shift (w : Word) {x : Word} (hx : x.toNat < 2 ^ 16) {j k : ℕ} (hj : j < 16) :
    slot (w ^^^ (x <<< (k <<< 4))) j = if j = k then slot w j ^^^ x else slot w j := by
  apply BitVec.eq_of_getLsbD_eq
  intro i hi
  rw [getLsbD_slot, BitVec.getLsbD_xor, BitVec.getLsbD_shiftLeft, Nat.shiftLeft_eq, show 2 ^ 4 = 16 from rfl]
  by_cases h : i < 16
  · rcases lt_trichotomy j k with hlt | rfl | hgt
    · rw [if_neg (by omega), getLsbD_slot]
      simp [show j * 16 + i < k * 16 by omega]
    · rw [if_pos rfl, BitVec.getLsbD_xor, getLsbD_slot]
      simp [h, show j * 16 + i < 256 by omega]
    · rw [if_neg (by omega), getLsbD_slot, getLsbD_of_lt hx (show 16 ≤ j * 16 + i - k * 16 by omega)]
      simp
  · split
    · rw [BitVec.getLsbD_xor, getLsbD_slot, getLsbD_of_lt hx (show 16 ≤ i by omega)]
      simp [h]
    · rw [getLsbD_slot]
      simp [h]

/-! ### Arrays of packed words -/

/-- The slots of an array of words, in order. -/
def slots (a : List Word) (e : ℕ) : Word := slot (rd a (e / 16)) (e % 16)

/-- Arrays of the same length with the same slots are equal. -/
theorem eq_of_slots {a b : List Word} (hl : a.length = b.length)
    (h : ∀ e < 16 * a.length, slots a e = slots b e) : a = b := by
  apply ext_rd hl
  intro i hi
  apply eq_of_slot
  intro j hj
  have := h (16 * i + j) (by omega)
  rwa [slots, slots, show (16 * i + j) / 16 = i by omega, show (16 * i + j) % 16 = j by omega] at this

end Word
