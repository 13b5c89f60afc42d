import DfVrf.Lib.Word
import Mathlib.Data.List.Induction

/-!
# Byte strings

Byte strings are lists.  A string of known length is a `ByteVec`; a string is read as a big-endian number by
`Bytes.value`, whose digits are the bytes (`value_digit`).  A word of 256 bits and its 32 bytes determine each other
(`Word.ofBytes_bytes`, `Word.bytes_ofBytes`).
-/

open InPlace

/-- A byte string of length `k`. -/
abbrev ByteVec (k : ℕ) := { bs : List UInt8 // bs.length = k }

namespace Bytes

/-- The big-endian value of a byte string. -/
def value (bs : List UInt8) : ℕ := bs.foldl (fun acc b => acc * 256 + b.toNat) 0

private theorem value_append_singleton (bs : List UInt8) (b : UInt8) :
    value (bs ++ [b]) = value bs * 256 + b.toNat := by
  rw [value, List.foldl_append]
  rfl

theorem value_lt (bs : List UInt8) : value bs < 256 ^ bs.length := by
  induction bs using List.reverseRecOn with
  | nil => decide
  | append_singleton bs b ih =>
    have hb := b.toNat_lt
    rw [value_append_singleton, List.length_append, List.length_singleton, pow_succ]
    omega

/-- The bytes are the digits of the value. -/
theorem value_digit {bs : List UInt8} {i : ℕ} (hi : i < bs.length) :
    value bs / 256 ^ (bs.length - 1 - i) % 256 = (rd bs i).toNat := by
  induction bs using List.reverseRecOn generalizing i with
  | nil => exact absurd hi (by simp)
  | append_singleton bs b ih =>
    have hb := b.toNat_lt
    rw [List.length_append, List.length_singleton] at hi ⊢
    rw [value_append_singleton]
    by_cases h : i = bs.length
    · subst h
      rw [rd_append_right _ (le_refl _), show bs.length + 1 - 1 - bs.length = 0 by omega, Nat.sub_self]
      simp [rd]
    · rw [rd_append_left _ (by omega), ← ih (by omega),
        show bs.length + 1 - 1 - i = bs.length - 1 - i + 1 by omega, pow_succ', ← Nat.div_div_eq_div_mul,
        show (value bs * 256 + b.toNat) / 256 = value bs by omega]

/-- Two adjacent bytes of the value. -/
theorem value_pair {bs : List UInt8} {i : ℕ} (hi : i + 1 < bs.length) :
    value bs / 256 ^ (bs.length - 2 - i) % 65536 = (rd bs i).toNat * 256 + (rd bs (i + 1)).toNat := by
  have h1 := value_digit (show i < bs.length by omega)
  have h2 := value_digit hi
  rw [show bs.length - 1 - i = bs.length - 2 - i + 1 by omega, pow_succ, ← Nat.div_div_eq_div_mul] at h1
  rw [show bs.length - 1 - (i + 1) = bs.length - 2 - i by omega] at h2
  omega

/-- The digits of a number are a string of the value of its low part. -/
private theorem value_digits (k x : ℕ) :
    value ((List.range k).map fun i => UInt8.ofNat (x / 256 ^ (k - 1 - i))) = x % 256 ^ k := by
  induction k generalizing x with
  | zero => simp [value, Nat.mod_one]
  | succ k ih =>
    have hhigh : (List.range k).map (fun i => UInt8.ofNat (x / 256 ^ (k + 1 - 1 - i))) =
        (List.range k).map fun i => UInt8.ofNat (x / 256 / 256 ^ (k - 1 - i)) := by
      refine List.map_congr_left fun i hi => ?_
      have := List.mem_range.1 hi
      rw [Nat.div_div_eq_div_mul, ← pow_succ', show k + 1 - 1 - i = k - 1 - i + 1 by omega]
    have hlow : (UInt8.ofNat (x / 256 ^ (k + 1 - 1 - k))).toNat = x % 256 := by
      rw [show k + 1 - 1 - k = 0 by omega, pow_zero, Nat.div_one, UInt8.toNat_ofNat']
    rw [List.range_succ, List.map_append, List.map_singleton, value_append_singleton, hhigh, ih, hlow, pow_succ',
      Nat.mod_mul]
    omega

end Bytes

namespace Word

/-- The word with the given 32 bytes, the most significant first. -/
def ofBytes (bs : List UInt8) : Word := BitVec.ofNat 256 (Bytes.value bs)

/-- The 32 bytes of a word, as they are stored in memory. -/
def bytes (w : Word) : List UInt8 := (List.range 32).map fun i => UInt8.ofNat (w.toNat / 256 ^ (31 - i))

theorem toNat_ofBytes {bs : List UInt8} (h : bs.length = 32) : (ofBytes bs).toNat = Bytes.value bs := by
  have hlt := Bytes.value_lt bs
  rw [h] at hlt
  rw [ofBytes, BitVec.toNat_ofNat]
  exact Nat.mod_eq_of_lt (lt_of_lt_of_eq hlt (by norm_num))

@[simp] theorem length_bytes (w : Word) : (bytes w).length = 32 := by simp [bytes]

theorem ofBytes_bytes (w : Word) : ofBytes (bytes w) = w := by
  apply BitVec.eq_of_toNat_eq
  rw [toNat_ofBytes (length_bytes w), bytes, Bytes.value_digits 32, Nat.mod_eq_of_lt]
  exact lt_of_lt_of_eq w.isLt (by norm_num)

theorem bytes_ofBytes {bs : List UInt8} (h : bs.length = 32) : bytes (ofBytes bs) = bs := by
  apply ext_rd
  · rw [length_bytes, h]
  · intro i hi
    rw [length_bytes] at hi
    have hdigit := Bytes.value_digit (show i < bs.length by omega)
    rw [h] at hdigit
    apply UInt8.toNat_inj.1
    rw [bytes, rd_map_range _ hi, UInt8.toNat_ofNat', toNat_ofBytes h]
    exact hdigit

end Word
