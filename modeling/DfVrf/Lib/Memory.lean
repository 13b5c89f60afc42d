import DfVrf.Lib.Bytes

/-!
# Byte-addressed memory

A memory has a byte at every address.  Words are read and written at arbitrary addresses, so that two words can overlap
in some of their bytes.

* `load_store`, `load_store_of_disjoint`: a word that is read behind a write.
* `copyWords_apply`: copying word by word copies the bytes.
-/

open InPlace

/-- A memory. -/
abbrev Memory := ℕ → UInt8

namespace Memory

/-- The `k` bytes from the address `p` on. -/
def bytesAt (mem : Memory) (p k : ℕ) : List UInt8 := (List.range' p k).map mem

/-- Write a byte string to the address `p`. -/
def storeBytes (mem : Memory) (p : ℕ) (bs : List UInt8) : Memory := fun a =>
  if p ≤ a ∧ a < p + bs.length then rd bs (a - p) else mem a

/-- The word at the address `p`. -/
def load (mem : Memory) (p : ℕ) : Word := Word.ofBytes (mem.bytesAt p 32)

/-- Write a word to the address `p`. -/
def store (mem : Memory) (p : ℕ) (w : Word) : Memory := mem.storeBytes p (Word.bytes w)

/-- Copy `k` words, one after the other. -/
def copyWords (mem : Memory) (src dst k : ℕ) : Memory :=
  (List.range k).foldl (fun mem i => mem.store (dst + 32 * i) (mem.load (src + 32 * i))) mem

/-- The byte string whose length is the word at `p`, and whose bytes follow. -/
def readBytes (mem : Memory) (p : ℕ) : List UInt8 := mem.bytesAt (p + 32) (mem.load p).toNat

/-- The array whose length is the word at `p`, and whose words follow. -/
def readWords (mem : Memory) (p : ℕ) : List Word :=
  (List.range (mem.load p).toNat).map fun i => mem.load (p + 32 + 32 * i)

@[simp] theorem length_bytesAt (mem : Memory) (p k : ℕ) : (mem.bytesAt p k).length = k := by simp [bytesAt]

theorem rd_bytesAt (mem : Memory) (p : ℕ) {k i : ℕ} (hi : i < k) : rd (mem.bytesAt p k) i = mem (p + i) := by
  rw [bytesAt, rd_map _ (by simpa using hi), rd_eq_getElem (by simpa using hi), List.getElem_range', Nat.one_mul]

private theorem bytesAt_congr {mem mem' : Memory} {p k : ℕ} (h : ∀ a, p ≤ a → a < p + k → mem a = mem' a) :
    mem.bytesAt p k = mem'.bytesAt p k := by
  refine List.map_congr_left fun a ha => ?_
  have := List.mem_range'_1.1 ha
  exact h a this.1 this.2

theorem load_congr {mem mem' : Memory} {p : ℕ} (h : ∀ a, p ≤ a → a < p + 32 → mem a = mem' a) :
    mem.load p = mem'.load p := by
  rw [load, load, bytesAt_congr h]

theorem storeBytes_apply_of_lt {mem : Memory} {p : ℕ} {bs : List UInt8} {i : ℕ} (h : i < bs.length) :
    mem.storeBytes p bs (p + i) = rd bs i := by
  rw [storeBytes, if_pos (by omega), Nat.add_sub_cancel_left]

theorem storeBytes_apply_of_not {mem : Memory} {p a : ℕ} {bs : List UInt8} (h : a < p ∨ p + bs.length ≤ a) :
    mem.storeBytes p bs a = mem a := by
  rw [storeBytes, if_neg (by omega)]

theorem store_apply_of_not {mem : Memory} {p a : ℕ} (w : Word) (h : a < p ∨ p + 32 ≤ a) : mem.store p w a = mem a :=
  storeBytes_apply_of_not (by rwa [Word.length_bytes])

private theorem bytesAt_store (mem : Memory) (p : ℕ) (w : Word) : (mem.store p w).bytesAt p 32 = Word.bytes w := by
  apply ext_rd
  · rw [length_bytesAt, Word.length_bytes]
  · intro i hi
    rw [length_bytesAt] at hi
    rw [rd_bytesAt _ _ hi, store, storeBytes_apply_of_lt (by rwa [Word.length_bytes])]

@[simp] theorem load_store (mem : Memory) (p : ℕ) (w : Word) : (mem.store p w).load p = w := by
  rw [load, bytesAt_store, Word.ofBytes_bytes]

theorem load_store_of_disjoint {mem : Memory} {p p' : ℕ} (w : Word) (h : p' + 32 ≤ p ∨ p + 32 ≤ p') :
    (mem.store p w).load p' = mem.load p' := by
  apply load_congr
  intro a h1 h2
  exact store_apply_of_not w (by omega)

/-- The bytes of a word that is copied. -/
private theorem store_load_apply {mem mem' : Memory} {p p' i : ℕ} (hi : i < 32) :
    mem'.store p (mem.load p') (p + i) = mem (p' + i) := by
  rw [store, storeBytes_apply_of_lt (by rwa [Word.length_bytes]), load, Word.bytes_ofBytes (length_bytesAt _ _ _),
    rd_bytesAt _ _ hi]

/-- Bytes outside of the copy stay as they are. -/
theorem copyWords_apply_of_not {mem : Memory} {src dst k a : ℕ} (h : a < dst ∨ dst + 32 * k ≤ a) :
    mem.copyWords src dst k a = mem a := by
  induction k with
  | zero => rfl
  | succ k ih =>
    rw [copyWords, List.range_succ, List.foldl_append, ← copyWords, List.foldl_cons, List.foldl_nil,
      store_apply_of_not _ (by omega), ih (by omega)]

/-- Copying to an area behind the source copies the bytes. -/
theorem copyWords_apply {mem : Memory} {src dst k i : ℕ} (h : src + 32 * k ≤ dst) (hi : i < 32 * k) :
    mem.copyWords src dst k (dst + i) = mem (src + i) := by
  induction k with
  | zero => omega
  | succ k ih =>
    rw [copyWords, List.range_succ, List.foldl_append, ← copyWords, List.foldl_cons, List.foldl_nil]
    by_cases hlast : i < 32 * k
    · rw [store_apply_of_not _ (by omega), ih (by omega) hlast]
    · obtain ⟨j, rfl⟩ : ∃ j, i = 32 * k + j := ⟨i - 32 * k, by omega⟩
      rw [← Nat.add_assoc, store_load_apply (by omega), copyWords_apply_of_not (by omega), Nat.add_assoc]

end Memory
