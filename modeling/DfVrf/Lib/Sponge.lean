import Mathlib.Data.List.Basic
import Mathlib.Logic.Function.Iterate
import Mathlib.Tactic.Common

/-!
# Sponges

A sponge has a state of type `σ`, a permutation of the state, and an operation that adds a byte at a position of
the state.  Input is absorbed byte by byte; whenever `rate` bytes have been added the permutation is applied.

* `absorbLoop_eq_absorb`: absorbing in chunks up to the next block boundary is absorbing byte by byte.
* `Simulates.absorb`: sponges with different representations of the state absorb alike.
* `squeezeLoop_spec`: a loop that reads chunks up to the next block boundary produces the output stream.
* `squeezeEager_spec`: so does a loop that applies the permutation at the end of a block and not before the next.
-/

namespace Sponge

variable {σ τ ι o : Type*}

/-- Add the bytes of a chunk from position `i` on. -/
def addChunk (add : σ → ℕ → ι → σ) (A : σ) (i : ℕ) (bs : List ι) : σ :=
  (bs.foldl (fun (st : σ × ℕ) b => (add st.1 st.2 b, st.2 + 1)) (A, i)).1

/-- Absorb one byte at the current position. -/
def absorbByte (perm : σ → σ) (add : σ → ℕ → ι → σ) (rate : ℕ) (st : σ × ℕ) (b : ι) : σ × ℕ :=
  let A := add st.1 st.2 b
  if st.2 + 1 = rate then (perm A, 0) else (A, st.2 + 1)

/-- Absorb a string byte by byte. -/
def absorb (perm : σ → σ) (add : σ → ℕ → ι → σ) (rate : ℕ) (st : σ × ℕ) (bs : List ι) : σ × ℕ :=
  bs.foldl (absorbByte perm add rate) st

/-- Absorb a string in chunks that end at the next block boundary; the first argument bounds the number of
chunks. -/
def absorbLoop (perm : σ → σ) (add : σ → ℕ → ι → σ) (rate : ℕ) : ℕ → σ × ℕ → List ι → σ × ℕ
  | 0, st, _ => st
  | fuel + 1, (A, i), bs =>
    if bs.length = 0 then (A, i)
    else
      let can := rate - i
      let clen := if can < bs.length then can else bs.length
      let A := addChunk add A i (bs.take clen)
      let i := i + clen
      let st := if i = rate then (perm A, 0) else (A, i)
      absorbLoop perm add rate fuel st (bs.drop clen)

/-! ### Absorbing -/

theorem absorb_append (perm : σ → σ) (add : σ → ℕ → ι → σ) (rate : ℕ) (st : σ × ℕ) (xs ys : List ι) :
    absorb perm add rate st (xs ++ ys) = absorb perm add rate (absorb perm add rate st xs) ys := by
  rw [absorb, List.foldl_append]
  rfl

private theorem addChunk_cons (add : σ → ℕ → ι → σ) (A : σ) (i : ℕ) (b : ι) (bs : List ι) :
    addChunk add A i (b :: bs) = addChunk add (add A i b) (i + 1) bs := rfl

theorem absorb_snd_lt {perm : σ → σ} {add : σ → ℕ → ι → σ} {rate : ℕ} {st : σ × ℕ} (h : st.2 < rate)
    (bs : List ι) : (absorb perm add rate st bs).2 < rate := by
  induction bs generalizing st with
  | nil => exact h
  | cons b bs ih =>
    apply ih
    rw [absorbByte]
    split
    · show 0 < rate
      omega
    · show st.2 + 1 < rate
      omega

/-- A chunk within one block. -/
private theorem absorb_chunk (perm : σ → σ) (add : σ → ℕ → ι → σ) {rate i : ℕ} (hi : i < rate) (A : σ) {bs : List ι}
    (hl : i + bs.length ≤ rate) : absorb perm add rate (A, i) bs =
      if i + bs.length = rate then (perm (addChunk add A i bs), 0) else (addChunk add A i bs, i + bs.length) := by
  induction bs generalizing i A with
  | nil =>
    rw [if_neg (by simp; omega)]
    rfl
  | cons b bs ih =>
    rw [List.length_cons] at hl ⊢
    rw [absorb, List.foldl_cons, ← absorb, absorbByte, addChunk_cons]
    by_cases h : i + 1 = rate
    · obtain rfl : bs = [] := List.length_eq_zero_iff.1 (by omega)
      rw [if_pos h, if_pos (by simpa using h)]
      rfl
    · rw [if_neg h, ih (by omega) _ (by omega), show i + 1 + bs.length = i + (bs.length + 1) by omega]

theorem absorb_snd_of_lt (perm : σ → σ) (add : σ → ℕ → ι → σ) {rate i : ℕ} (A : σ) {bs : List ι}
    (hl : i + bs.length < rate) : (absorb perm add rate (A, i) bs).2 = i + bs.length := by
  rw [absorb_chunk perm add (by omega) A (by omega), if_neg (by omega)]

/-- Absorbing in chunks is absorbing byte by byte. -/
theorem absorbLoop_eq_absorb (perm : σ → σ) (add : σ → ℕ → ι → σ) {rate fuel i : ℕ} (hi : i < rate) (A : σ)
    {bs : List ι} (hf : bs.length ≤ fuel) :
    absorbLoop perm add rate fuel (A, i) bs = absorb perm add rate (A, i) bs := by
  induction fuel generalizing A i bs with
  | zero =>
    obtain rfl : bs = [] := List.length_eq_zero_iff.1 (by omega)
    rfl
  | succ fuel ih =>
    rw [absorbLoop]
    by_cases h0 : bs.length = 0
    · rw [if_pos h0, List.length_eq_zero_iff.1 h0]
      rfl
    · rw [if_neg h0]
      obtain ⟨c, hc⟩ : ∃ c, (if rate - i < bs.length then rate - i else bs.length) = c := ⟨_, rfl⟩
      -- a chunk is not empty and stays within the block
      have hc' : 0 < c ∧ c ≤ bs.length ∧ i + c ≤ rate := by split at hc <;> omega
      have htake : (bs.take c).length = c := by rw [List.length_take]; omega
      have hchunk := absorb_chunk perm add hi A (show i + (bs.take c).length ≤ rate by omega)
      rw [htake] at hchunk
      simp only [hc]
      rw [← hchunk]
      have hlt : (absorb perm add rate (A, i) (bs.take c)).2 < rate := absorb_snd_lt hi _
      rw [ih hlt _ (by rw [List.length_drop]; omega), ← absorb_append, List.take_append_drop]

/-- A relation between the states of two sponges that additions and permutations keep. -/
structure Simulates (R : σ → τ → Prop) (perm : σ → σ) (add : σ → ℕ → ι → σ) (perm' : τ → τ)
    (add' : τ → ℕ → ι → τ) (rate : ℕ) : Prop where
  perm : ∀ A B, R A B → R (perm A) (perm' B)
  add : ∀ A B i b, i < rate → R A B → R (add A i b) (add' B i b)

/-- Related sponges absorb alike. -/
theorem Simulates.absorb {R : σ → τ → Prop} {perm : σ → σ} {add : σ → ℕ → ι → σ} {perm' : τ → τ}
    {add' : τ → ℕ → ι → τ} {rate : ℕ} (h : Simulates R perm add perm' add' rate) {A : σ} {B : τ} {i : ℕ}
    (hi : i < rate) (hR : R A B) (bs : List ι) :
    R (Sponge.absorb perm add rate (A, i) bs).1 (Sponge.absorb perm' add' rate (B, i) bs).1 ∧
      (Sponge.absorb perm add rate (A, i) bs).2 = (Sponge.absorb perm' add' rate (B, i) bs).2 := by
  induction bs generalizing A B i with
  | nil => exact ⟨hR, rfl⟩
  | cons b bs ih =>
    have hadd := h.add A B i b hi hR
    rw [Sponge.absorb, Sponge.absorb, List.foldl_cons, List.foldl_cons, ← Sponge.absorb, ← Sponge.absorb,
      absorbByte, absorbByte]
    by_cases hr : i + 1 = rate
    · rw [if_pos hr, if_pos hr]
      exact ih (by omega) (h.perm _ _ hadd)
    · rw [if_neg hr, if_neg hr]
      exact ih (by omega) hadd

/-! ### Squeezing -/

/-- Byte `p` of the output, for a state to which the permutation has not yet been applied. -/
def stream (perm : σ → σ) (get : σ → ℕ → o) (rate : ℕ) (A : σ) (p : ℕ) : o :=
  get (perm^[p / rate + 1] A) (p % rate)

/-- Read `len` bytes in chunks; the permutation is applied when the position has reached the end of a block.  The
first argument bounds the number of chunks. -/
def squeezeLoop (perm : σ → σ) (get : σ → ℕ → o) (rate : ℕ) : ℕ → σ × ℕ → ℕ → (σ × ℕ) × List o
  | 0, st, _ => (st, [])
  | fuel + 1, st, len =>
    if len = 0 then (st, [])
    else
      let st := if st.2 = rate then (perm st.1, 0) else st
      let can := rate - st.2
      let clen := if can < len then can else len
      let out := (List.range clen).map fun j => get st.1 (st.2 + j)
      let r := squeezeLoop perm get rate fuel (st.1, st.2 + clen) (len - clen)
      (r.1, out ++ r.2)

/-- The state after `p` bytes of output; a block boundary is reached before the permutation is applied. -/
def AtPos (perm : σ → σ) (rate : ℕ) (A : σ) (st : σ × ℕ) (p : ℕ) : Prop :=
  (p % rate = 0 ∧ st = (perm^[p / rate] A, rate)) ∨ (p % rate ≠ 0 ∧ st = (perm^[p / rate + 1] A, p % rate))

theorem atPos_zero (perm : σ → σ) (rate : ℕ) (A : σ) : AtPos perm rate A (A, rate) 0 := by
  left
  simp

/-- Bytes of one block. -/
theorem stream_block (perm : σ → σ) (get : σ → ℕ → o) {rate : ℕ} (hr : 0 < rate) (A : σ) {p k : ℕ}
    (hk : p % rate + k ≤ rate) :
    (List.range k).map (fun j => get (perm^[p / rate + 1] A) (p % rate + j)) =
      (List.range' p k).map (stream perm get rate A) := by
  apply List.ext_getElem
  · simp
  · intro j h1 h2
    rw [List.length_map, List.length_range] at h1
    have hdm := Nat.div_add_mod p rate
    have hj : p + j = rate * (p / rate) + (p % rate + j) := by omega
    have hlt : p % rate + j < rate := by omega
    have hd : (p + j) / rate = p / rate := by rw [hj, Nat.mul_add_div hr, Nat.div_eq_of_lt hlt, Nat.add_zero]
    have hm : (p + j) % rate = p % rate + j := by rw [hj, Nat.mul_add_mod, Nat.mod_eq_of_lt hlt]
    rw [List.getElem_map, List.getElem_range, List.getElem_map, List.getElem_range', Nat.one_mul, stream, hd, hm]

/-- Whatever is requested, the output continues the stream. -/
theorem squeezeLoop_spec {perm : σ → σ} {get : σ → ℕ → o} {rate : ℕ} (hr : 0 < rate) {A : σ}
    {fuel p len : ℕ} {st : σ × ℕ} (h : AtPos perm rate A st p) (hf : len ≤ fuel) :
    AtPos perm rate A (squeezeLoop perm get rate fuel st len).1 (p + len) ∧
      (squeezeLoop perm get rate fuel st len).2 = (List.range' p len).map (stream perm get rate A) := by
  induction fuel generalizing p len st with
  | zero =>
    obtain rfl : len = 0 := by omega
    exact ⟨h, rfl⟩
  | succ fuel ih =>
    rw [squeezeLoop]
    by_cases h0 : len = 0
    · subst h0
      exact ⟨h, rfl⟩
    · have hmod := Nat.mod_lt p hr
      -- the state after the permutation at a block boundary
      have hst : (if st.2 = rate then (perm st.1, 0) else st) = (perm^[p / rate + 1] A, p % rate) := by
        rcases h with ⟨hp, rfl⟩ | ⟨hp, rfl⟩
        · rw [if_pos rfl, hp, Function.iterate_succ_apply']
        · rw [if_neg (by show ¬ p % rate = rate; omega)]
      obtain ⟨c, hc⟩ : ∃ c, (if rate - p % rate < len then rate - p % rate else len) = c := ⟨_, rfl⟩
      have hc' : 0 < c ∧ c ≤ len ∧ p % rate + c ≤ rate := by split at hc <;> omega
      have hdm := Nat.div_add_mod p rate
      have hpc : p + c = rate * (p / rate) + (p % rate + c) := by omega
      have hnext : AtPos perm rate A (perm^[p / rate + 1] A, p % rate + c) (p + c) := by
        by_cases hb : p % rate + c = rate
        · left
          have hpc' : p + c = rate * (p / rate + 1) := by rw [hpc, hb, Nat.mul_succ]
          rw [hpc', hb, Nat.mul_mod_right, Nat.mul_div_cancel_left _ hr]
          exact ⟨rfl, rfl⟩
        · right
          have hlt : p % rate + c < rate := by omega
          rw [hpc, Nat.mul_add_mod, Nat.mul_add_div hr, Nat.mod_eq_of_lt hlt, Nat.div_eq_of_lt hlt]
          exact ⟨by omega, rfl⟩
      rw [if_neg h0]
      simp only [hst, hc]
      obtain ⟨h1, h2⟩ := ih hnext (show len - c ≤ fuel by omega)
      rw [show p + c + (len - c) = p + len by omega] at h1
      refine ⟨h1, ?_⟩
      rw [h2, stream_block perm get hr A hc'.2.2, ← List.map_append, List.range'_append_1,
        show c + (len - c) = len by omega]

/-- Read `len` bytes in chunks; the permutation is applied as soon as the position reaches the end of a block. -/
def squeezeEager (perm : σ → σ) (get : σ → ℕ → o) (rate : ℕ) : ℕ → σ × ℕ → ℕ → (σ × ℕ) × List o
  | 0, st, _ => (st, [])
  | fuel + 1, st, len =>
    if len = 0 then (st, [])
    else
      let can := rate - st.2
      let clen := if can < len then can else len
      let out := (List.range clen).map fun j => get st.1 (st.2 + j)
      let st := if st.2 + clen = rate then (perm st.1, 0) else (st.1, st.2 + clen)
      let r := squeezeEager perm get rate fuel st (len - clen)
      (r.1, out ++ r.2)

/-- The state after `p` bytes of output if the permutation is applied eagerly. -/
def eagerAt (perm : σ → σ) (rate : ℕ) (A : σ) (p : ℕ) : σ × ℕ := (perm^[p / rate + 1] A, p % rate)

/-- A chunk within one block. -/
private theorem eagerAt_add (perm : σ → σ) {rate : ℕ} (hr : 0 < rate) (A : σ) {p k : ℕ} (hk : p % rate + k ≤ rate) :
    eagerAt perm rate A (p + k) =
      if p % rate + k = rate then (perm (perm^[p / rate + 1] A), 0) else (perm^[p / rate + 1] A, p % rate + k) := by
  have hpk : p + k = rate * (p / rate) + (p % rate + k) := by
    have := Nat.div_add_mod p rate
    omega
  unfold eagerAt
  split
  · rename_i hb
    rw [hpk, hb, ← Nat.mul_succ, Nat.mul_mod_right, Nat.mul_div_cancel_left _ hr, Function.iterate_succ_apply']
  · rename_i hb
    have hlt : p % rate + k < rate := by omega
    rw [hpk, Nat.mul_add_mod, Nat.mul_add_div hr, Nat.mod_eq_of_lt hlt, Nat.div_eq_of_lt hlt, Nat.add_zero]

/-- The output is the same stream. -/
theorem squeezeEager_spec (perm : σ → σ) (get : σ → ℕ → o) {rate : ℕ} (hr : 0 < rate) (A : σ) {fuel p len : ℕ}
    (hf : len ≤ fuel) : squeezeEager perm get rate fuel (eagerAt perm rate A p) len =
      (eagerAt perm rate A (p + len), (List.range' p len).map (stream perm get rate A)) := by
  induction fuel generalizing p len with
  | zero =>
    obtain rfl : len = 0 := by omega
    rfl
  | succ fuel ih =>
    by_cases h0 : len = 0
    · subst h0
      rfl
    · have hmod := Nat.mod_lt p hr
      obtain ⟨st, hst⟩ : ∃ st, eagerAt perm rate A p = st := ⟨_, rfl⟩
      have h1 : st.1 = perm^[p / rate + 1] A := by rw [← hst, eagerAt]
      have h2 : st.2 = p % rate := by rw [← hst, eagerAt]
      obtain ⟨c, hc⟩ : ∃ c, (if rate - st.2 < len then rate - st.2 else len) = c := ⟨_, rfl⟩
      have hc' : 0 < c ∧ c ≤ len ∧ p % rate + c ≤ rate := by split at hc <;> omega
      have hrest := ih (p := p + c) (show len - c ≤ fuel by omega)
      rw [eagerAt_add perm hr A hc'.2.2, ← h1, ← h2, show p + c + (len - c) = p + len by omega] at hrest
      rw [hst, squeezeEager, if_neg h0]
      simp only [hc, hrest]
      rw [h1, h2, stream_block perm get hr A hc'.2.2, ← List.map_append, List.range'_append_1,
        show c + (len - c) = len by omega]

end Sponge
