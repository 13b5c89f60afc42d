import DfVrf.Lib.InPlace
import DfVrf.Crypto.Shake

/-!
# The generator of the sampler (`rng.c`, `inner.h`)

Eight instances of ChaCha20 fill a buffer of 512 bytes, from which the sampler draws bytes and words of 64 bits.  A word
is not taken across the end of the buffer: the bytes that are left are dropped.

* `runDraws_spec`: draws read the stream of the generator in order, and no byte of it twice.
-/

namespace DfVrf.Crypto

open InPlace

/-! ### The code -/

/-- The constants `CW` of `prng_refill`. -/
def CW : List UInt32 := [0x61707865, 0x3320646e, 0x79622d32, 0x6b206574]

/-- `prng`: the 12 words of the key and the IV, the block counter, the buffer and the position in it. -/
structure Prng where
  key : List UInt32
  cc : UInt64
  buf : List UInt8
  ptr : ℕ

/-- A rotation of a word to the left. -/
def rotl32 (x : UInt32) (n : UInt32) : UInt32 := (x <<< n) ||| (x >>> (32 - n))

/-- `QROUND`. -/
def qround (st : List UInt32) (a b c d : ℕ) : List UInt32 :=
  let st := st.set a (rd st a + rd st b)
  let st := st.set d (rotl32 (rd st d ^^^ rd st a) 16)
  let st := st.set c (rd st c + rd st d)
  let st := st.set b (rotl32 (rd st b ^^^ rd st c) 12)
  let st := st.set a (rd st a + rd st b)
  let st := st.set d (rotl32 (rd st d ^^^ rd st a) 8)
  let st := st.set c (rd st c + rd st d)
  st.set b (rotl32 (rd st b ^^^ rd st c) 7)

/-- Two rounds of ChaCha20. -/
def doubleRound (st : List UInt32) : List UInt32 :=
  let st := qround st 0 4 8 12
  let st := qround st 1 5 9 13
  let st := qround st 2 6 10 14
  let st := qround st 3 7 11 15
  let st := qround st 0 5 10 15
  let st := qround st 1 6 11 12
  let st := qround st 2 7 8 13
  qround st 3 4 9 14

/-- The block for one value of the counter, which is XORed into the last two words. -/
def chachaBlock (key : List UInt32) (cc : UInt64) : List UInt32 :=
  let init := CW ++ key
  let init := (init.set 14 (rd init 14 ^^^ cc.toUInt32)).set 15 (rd init 15 ^^^ (cc >>> 32).toUInt32)
  let st := (List.range 10).foldl (fun st _ => doubleRound st) init
  (List.range 16).map fun v => rd st v + rd init v

/-- The bytes that `prng_refill` writes: word `v` of block `u` stands at `(u << 2) + (v << 5)`. -/
def refillBytes (key : List UInt32) (cc : UInt64) : List UInt8 :=
  let blocks := (List.range 8).map fun u => chachaBlock key (cc + UInt64.ofNat u)
  (List.range 512).map fun i => (rd (rd blocks (i % 32 / 4)) (i / 32) >>> UInt32.ofNat (8 * (i % 4))).toUInt8

/-- `prng_refill`. -/
def prngRefill (p : Prng) : Prng := ⟨p.key, p.cc + 8, refillBytes p.key p.cc, 0⟩

/-- The word at `off`, in little-endian order. -/
def wordAt (bs : List UInt8) (off : ℕ) : UInt32 :=
  (rd bs off).toUInt32 ||| ((rd bs (off + 1)).toUInt32 <<< 8) ||| ((rd bs (off + 2)).toUInt32 <<< 16) |||
    ((rd bs (off + 3)).toUInt32 <<< 24)

/-- `prng_init`. -/
def prngInit (perm : Lanes → Lanes) (src : Shake256) : Prng × Shake256 :=
  let r := Shake256.extract perm src 56
  let key := (List.range 12).map fun i => wordAt r.2 (i <<< 2)
  let tl := (wordAt r.2 48).toUInt64
  let th := (wordAt r.2 52).toUInt64
  (prngRefill ⟨key, tl + (th <<< 32), [], 0⟩, r.1)

/-- `prng_get_u64`. -/
def prngGetU64 (p : Prng) : UInt64 × Prng :=
  let q := if p.ptr ≥ 512 - 9 then prngRefill p else p
  let u := q.ptr
  ((List.range 8).foldl (fun w k => w ||| ((rd q.buf (u + k)).toUInt64 <<< UInt64.ofNat (8 * k))) 0,
    { q with ptr := u + 8 })

/-- `prng_get_u8`. -/
def prngGetU8 (p : Prng) : UInt8 × Prng :=
  let v := rd p.buf p.ptr
  let p := { p with ptr := p.ptr + 1 }
  (v, if p.ptr = 512 then prngRefill p else p)

/-! ### The stream -/

/-- Byte `i` of the generator with this key and this first value of the counter. -/
def prngStream (key : List UInt32) (cc : UInt64) (i : ℕ) : UInt8 :=
  rd (refillBytes key (cc + 8 * UInt64.ofNat (i / 512))) (i % 512)

/-- The generator stands at the byte `pos` of the stream. -/
structure Prng.At (key : List UInt32) (cc : UInt64) (p : Prng) (pos : ℕ) : Prop where
  key_eq : p.key = key
  cc_eq : p.cc = cc + 8 * UInt64.ofNat (pos / 512) + 8
  buf_eq : p.buf = refillBytes key (cc + 8 * UInt64.ofNat (pos / 512))
  ptr_eq : p.ptr = pos % 512

/-- The word of 64 bits at the byte `pos` of a stream. -/
def streamWord (s : ℕ → UInt8) (pos : ℕ) : UInt64 :=
  (List.range 8).foldl (fun w k => w ||| ((s (pos + k)).toUInt64 <<< UInt64.ofNat (8 * k))) 0

variable {key : List UInt32} {cc : UInt64} {p : Prng} {pos : ℕ}

private theorem Prng.At.byte (h : p.At key cc pos) {k : ℕ} (hk : pos % 512 + k < 512) :
    rd p.buf (p.ptr + k) = prngStream key cc (pos + k) := by
  rw [h.buf_eq, h.ptr_eq, prngStream, show (pos + k) / 512 = pos / 512 by omega,
    show (pos + k) % 512 = pos % 512 + k by omega]

/-- After the last byte of a buffer, the next one is filled. -/
private theorem Prng.At.refill (hkey : p.key = key) (hcc : p.cc = cc + 8 * UInt64.ofNat (pos / 512) + 8) {pos' : ℕ}
    (hpos : pos' = 512 * (pos / 512 + 1)) : (prngRefill p).At key cc pos' := by
  have hdiv : pos' / 512 = pos / 512 + 1 := by omega
  have hcount : cc + 8 * UInt64.ofNat (pos / 512 + 1) = p.cc := by
    rw [hcc, UInt64.ofNat_add, UInt64.mul_add, ← UInt64.add_assoc]
    rfl
  refine ⟨hkey, ?_, ?_, ?_⟩
  · rw [hdiv, hcount, prngRefill]
  · rw [hdiv, hcount, ← hkey, prngRefill]
  · rw [prngRefill, hpos, Nat.mul_mod_right]

private theorem prngRefill_at (key : List UInt32) (cc : UInt64) : (prngRefill ⟨key, cc, [], 0⟩).At key cc 0 := by
  have hcount : cc + 8 * UInt64.ofNat (0 / 512) = cc := UInt64.add_zero cc
  refine ⟨rfl, ?_, ?_, rfl⟩
  · rw [hcount, prngRefill]
  · rw [hcount, prngRefill]

theorem prngGetU8_spec (h : p.At key cc pos) :
    (prngGetU8 p).1 = prngStream key cc pos ∧ (prngGetU8 p).2.At key cc (pos + 1) := by
  refine ⟨h.byte (k := 0) (by omega), ?_⟩
  have hptr := h.ptr_eq
  unfold prngGetU8
  simp only
  split
  · rename_i hend
    exact Prng.At.refill h.key_eq h.cc_eq (by omega)
  · rename_i hend
    have hdiv : (pos + 1) / 512 = pos / 512 := by omega
    refine ⟨h.key_eq, ?_, ?_, ?_⟩
    · rw [hdiv]
      exact h.cc_eq
    · rw [hdiv]
      exact h.buf_eq
    · change p.ptr + 1 = _
      omega

/-- Where a word is read: bytes at the end of a buffer that do not suffice are dropped. -/
def wordStart (pos : ℕ) : ℕ := if pos % 512 ≥ 512 - 9 then 512 * (pos / 512 + 1) else pos

theorem prngGetU64_spec (h : p.At key cc pos) :
    (prngGetU64 p).1 = streamWord (prngStream key cc) (wordStart pos) ∧
      (prngGetU64 p).2.At key cc (wordStart pos + 8) := by
  have hptr := h.ptr_eq
  -- the generator after a refill, if there is one
  obtain ⟨q, hq, hqAt, hqlt⟩ : ∃ q, (if p.ptr ≥ 512 - 9 then prngRefill p else p) = q ∧
      q.At key cc (wordStart pos) ∧ wordStart pos % 512 < 512 - 9 := by
    refine ⟨_, rfl, ?_⟩
    unfold wordStart
    split
    · rw [if_pos (by omega)]
      exact ⟨Prng.At.refill h.key_eq h.cc_eq rfl, by omega⟩
    · rw [if_neg (by omega)]
      exact ⟨h, by omega⟩
  have hqptr := hqAt.ptr_eq
  unfold prngGetU64
  simp only [hq]
  constructor
  · refine List.foldl_ext _ _ _ fun w k hk => ?_
    rw [List.mem_range] at hk
    rw [hqAt.byte (k := k) (by omega)]
  · have hdiv : (wordStart pos + 8) / 512 = wordStart pos / 512 := by omega
    refine ⟨hqAt.key_eq, ?_, ?_, ?_⟩
    · rw [hdiv]
      exact hqAt.cc_eq
    · rw [hdiv]
      exact hqAt.buf_eq
    · change q.ptr + 8 = _
      omega

/-! ### Sequences of draws -/

/-- A draw of the sampler. -/
inductive Draw where
  | u8
  | u64

/-- The number of bytes of a draw. -/
def Draw.width : Draw → ℕ
  | .u8 => 1
  | .u64 => 8

/-- The values of draws, as numbers. -/
def runDraws : List Draw → Prng → List ℕ × Prng
  | [], p => ([], p)
  | .u8 :: ds, p =>
    let r := prngGetU8 p
    let rest := runDraws ds r.2
    (r.1.toNat :: rest.1, rest.2)
  | .u64 :: ds, p =>
    let r := prngGetU64 p
    let rest := runDraws ds r.2
    (r.1.toNat :: rest.1, rest.2)

/-- Where a draw is read. -/
def Draw.start : Draw → ℕ → ℕ
  | .u8, pos => pos
  | .u64, pos => wordStart pos

/-- The value that a draw reads at a byte of a stream. -/
def Draw.value (s : ℕ → UInt8) : Draw → ℕ → ℕ
  | .u8, pos => (s pos).toNat
  | .u64, pos => (streamWord s pos).toNat

/-- The bytes at which draws are read, one after the other. -/
def drawStarts : ℕ → List Draw → List ℕ
  | _, [] => []
  | pos, d :: ds => d.start pos :: drawStarts (d.start pos + d.width) ds

private theorem le_start (d : Draw) (pos : ℕ) : pos ≤ d.start pos ∧ d.start pos ≤ pos + 9 := by
  cases d with
  | u8 => exact ⟨le_rfl, Nat.le_add_right _ _⟩
  | u64 =>
    change pos ≤ wordStart pos ∧ wordStart pos ≤ pos + 9
    unfold wordStart
    split <;> omega

private theorem le_drawStarts {ds : List Draw} {i : ℕ} (hi : i ∈ drawStarts pos ds) : pos ≤ i := by
  induction ds generalizing pos with
  | nil => exact absurd hi (List.not_mem_nil)
  | cons d ds ih =>
    have hs := (le_start d pos).1
    rcases List.mem_cons.1 hi with rfl | hi
    · exact hs
    · exact (hs.trans (Nat.le_add_right _ _)).trans (ih hi)

/-- Draws return pieces of the stream: they are read in order, each after the end of the one before. -/
theorem runDraws_at (ds : List Draw) (h : p.At key cc pos) :
    (runDraws ds p).1 = List.zipWith (fun d i => d.value (prngStream key cc) i) ds (drawStarts pos ds) ∧
      (List.zip ds (drawStarts pos ds)).Pairwise (fun a b => a.2 + a.1.width ≤ b.2) ∧
      ∃ pos', (runDraws ds p).2.At key cc pos' := by
  induction ds generalizing p pos with
  | nil => exact ⟨rfl, List.Pairwise.nil, pos, h⟩
  | cons d ds ih =>
    have hpair : ∀ b ∈ List.zip ds (drawStarts (d.start pos + d.width) ds), d.start pos + d.width ≤ b.2 :=
      fun b hb => le_drawStarts (List.of_mem_zip hb).2
    cases d with
    | u8 =>
      obtain ⟨hv, hat⟩ := prngGetU8_spec h
      obtain ⟨h1, h2, h3⟩ := ih hat
      refine ⟨?_, List.Pairwise.cons hpair h2, h3⟩
      change (prngGetU8 p).1.toNat :: (runDraws ds (prngGetU8 p).2).1 = _
      rw [hv, h1]
      rfl
    | u64 =>
      obtain ⟨hv, hat⟩ := prngGetU64_spec h
      obtain ⟨h1, h2, h3⟩ := ih hat
      refine ⟨?_, List.Pairwise.cons hpair h2, h3⟩
      change (prngGetU64 p).1.toNat :: (runDraws ds (prngGetU64 p).2).1 = _
      rw [hv, h1]
      rfl

/-- After `prng_init` the generator stands at the start of its stream. -/
theorem prngInit_at (perm : Lanes → Lanes) (src : Shake256) :
    (prngInit perm src).1.At (prngInit perm src).1.key ((prngInit perm src).1.cc - (8 : UInt64)) 0 := by
  have h := prngRefill_at (prngInit perm src).1.key ((prngInit perm src).1.cc - (8 : UInt64))
  have hcc : (prngInit perm src).1.cc - (8 : UInt64) = (wordAt (Shake256.extract perm src 56).2 48).toUInt64 +
      ((wordAt (Shake256.extract perm src 56).2 52).toUInt64 <<< 32) := UInt64.add_sub_cancel _ _
  rw [hcc] at h ⊢
  exact h

/-- Any sequence of draws after `prng_init` returns disjoint pieces of one stream, in order. -/
theorem runDraws_spec (perm : Lanes → Lanes) (src : Shake256) (ds : List Draw) :
    (runDraws ds (prngInit perm src).1).1 = List.zipWith (fun d i => d.value
      (prngStream (prngInit perm src).1.key ((prngInit perm src).1.cc - (8 : UInt64))) i) ds (drawStarts 0 ds) ∧
    (List.zip ds (drawStarts 0 ds)).Pairwise fun a b => a.2 + a.1.width ≤ b.2 := by
  obtain ⟨h1, h2, -⟩ := runDraws_at ds (prngInit_at perm src)
  exact ⟨h1, h2⟩

end DfVrf.Crypto
