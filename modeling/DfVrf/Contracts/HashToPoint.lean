import DfVrf.Contracts.FalconUtils
import DfVrf.Contracts.Shake
import DfVrf.Crypto.HashToPoint

/-!
# Hashing to a polynomial in the contracts (`DFVRF_HashToPoint.sol`)

`hashToPointEVM` hashes a memory area that holds a 32-byte state and a word whose first eight bytes are a counter,
and unpacks sixteen samples from every hash.  `hashToPointNIST` squeezes blocks of 136 bytes and takes two bytes
at a time.  Either returns the first accepted values of a byte stream (`hashToPointEVM_iff`,
`hashToPointNIST_iff`), the one the C code draws from.
-/

namespace DfVrf.Contracts

open InPlace Word

/-- The acceptance test and the reduction of a sample. -/
def sampleWord (chunk : Word) : Option Word := if chunk < kq then some (chunk % q) else none

/-! ### Keccak-256 -/

/-- The sample `k` of a hash value. -/
def chunkAt (buffer : Word) (k : ℕ) : Word :=
  let j := 240 - (k <<< 4)
  (buffer >>> j) &&& 0xffff

/-- The inner loop of `hashToPointEVM` over the samples `k` of a hash value; `output` holds the coefficients
written so far, and the loop is left when there are 512. -/
def evmSampleBlock (buffer : Word) : List ℕ → List Word → List Word
  | [], output => output
  | k :: ks, output =>
    match sampleWord (chunkAt buffer k) with
    | none => evmSampleBlock buffer ks output
    | some c =>
      let output := output ++ [c]
      if output.length = 512 then output else evmSampleBlock buffer ks output

/-- The summand that increments the first eight bytes of the counter word, `2 ^ 192`. -/
def counterStep : Word := 6277101735386680763835789423207666416102355444464034512896

/-- The outer loop of `hashToPointEVM`, for at most `fuel` hash values.  The hashed area is the state followed by
the first eight bytes of the counter word. -/
def evmSampleLoop (K : Crypto.Keccak256) (state : ByteVec 32) : ℕ → Word → List Word → Option (List Word)
  | 0, _, output => if output.length < n then none else some output
  | fuel + 1, counter, output =>
    if output.length < n then
      let buffer := ofBytes (K ((state.1 ++ bytes counter).take 40)).1
      evmSampleLoop K state fuel (counter + counterStep) (evmSampleBlock buffer (List.range 16) output)
    else some output

def hashToPointEVM (K : Crypto.Keccak256) (fuel : ℕ) (salt msgHash : List UInt8) : Option (List Word) :=
  let state := K (salt ++ msgHash)
  evmSampleLoop K state fuel 0 []

/-! ### SHAKE256 -/

/-- One round of the loop of `hashToPointNIST`, on the context, the squeezed block and the position in it: a new
block if the last one is used up, and the next two bytes. -/
def nistNext (f : Lanes → Lanes) (st : CtxShake × List UInt8 × ℕ) : Word × (CtxShake × List UInt8 × ℕ) :=
  let (ctx, tmp, j) := if st.2.2 = 136 then
      ((shakeSqueeze f st.1 136).1, (shakeSqueeze f st.1 136).2, 0)
    else st
  let dibytes := BitVec.ofNat 256 (rd tmp (j + 1)).toNat + (BitVec.ofNat 256 (rd tmp j).toNat <<< 8)
  (dibytes, ctx, tmp, j + 2)

def hashToPointNIST (f : Lanes → Lanes) (fuel : ℕ) (salt msgHash : List UInt8) : Option (List Word) :=
  let ctx := shakeUpdate f CtxShake.default (salt ++ msgHash)
  let ctx := shakePad f ctx
  let r := shakeSqueeze f ctx 136
  Sampling.collect (nistNext f) sampleWord fuel n (r.1, r.2, 0)

/-! ### One sample -/

private theorem sampleWord_eq (w : Word) : sampleWord w = (acceptSample w.toNat).map (BitVec.ofNat 256) := by
  have hlt : w < kq ↔ w.toNat < 61445 := BitVec.lt_def
  rw [sampleWord, acceptSample]
  by_cases h : w.toNat < 61445
  · rw [if_pos h, if_pos (hlt.2 h), Option.map_some]
    congr 1
    apply BitVec.eq_of_toNat_eq
    rw [BitVec.toNat_umod, BitVec.toNat_ofNat, show q.toNat = 12289 from rfl]
    omega
  · rw [if_neg h, if_neg (fun hc => h (hlt.1 hc))]
    rfl

/-- The coefficient drawn by a contract, as a word. -/
def wordDraws (stream : ℕ → UInt8) (j : ℕ) : Option Word := (draws stream j).map (BitVec.ofNat 256)

/-! ### The Keccak-256 loop -/

/-- The samples of a hash value are the pairs of its bytes. -/
private theorem toNat_chunk {bs : List UInt8} (h : bs.length = 32) {k : ℕ} (hk : k < 16) :
    (chunkAt (ofBytes bs) k).toNat = (rd bs (2 * k)).toNat * 256 + (rd bs (2 * k + 1)).toNat := by
  have hpair := Bytes.value_pair (show 2 * k + 1 < bs.length by omega)
  have hpow : 256 ^ (bs.length - 2 - 2 * k) = 2 ^ (240 - k * 2 ^ 4) := by
    rw [show 256 = 2 ^ 8 from rfl, ← pow_mul, h]
    congr 1
    omega
  rw [hpow] at hpair
  rw [chunkAt, BitVec.toNat_and, BitVec.toNat_ushiftRight, toNat_ofBytes h,
    show (0xffff : Word).toNat = 2 ^ 16 - 1 from rfl, Nat.and_two_pow_sub_one_eq_mod, Nat.shiftRight_eq_div_pow,
    Nat.shiftLeft_eq]
  exact hpair

private theorem toNat_counterStep : counterStep.toNat = 2 ^ 192 := by decide +kernel

/-- The first eight bytes of the counter word after `k` increments. -/
private theorem take_bytes_counter (k : ℕ) :
    (bytes (BitVec.ofNat 256 (k * 2 ^ 192))).take 8 = Crypto.KeccakPrng.counterBytes (UInt64.ofNat k) := by
  apply List.ext_getElem
  · simp [bytes, Crypto.KeccakPrng.counterBytes]
  · intro i h1 h2
    have hi : i < 8 := by
      rw [List.length_take] at h1
      omega
    simp only [bytes, Crypto.KeccakPrng.counterBytes, List.getElem_take, List.getElem_map, List.getElem_range]
    apply UInt8.toNat_inj.1
    have hshift : (UInt64.ofNat k >>> UInt64.ofNat (56 - i * 8)).toNat = k % 2 ^ 64 / 2 ^ (56 - i * 8) := by
      rw [UInt64.toNat_shiftRight, UInt64.toNat_ofNat', UInt64.toNat_ofNat', Nat.shiftRight_eq_div_pow]
      congr 2
      omega
    have hdiv : k * 2 ^ 192 % 2 ^ 256 / 256 ^ (31 - i) = k % 2 ^ 64 / 2 ^ (56 - i * 8) := by
      rw [show (2 : ℕ) ^ 256 = 2 ^ 64 * 2 ^ 192 by norm_num, Nat.mul_mod_mul_right, show 256 = 2 ^ 8 from rfl,
        ← pow_mul, show 8 * (31 - i) = 192 + (56 - i * 8) by omega, pow_add, ← Nat.div_div_eq_div_mul,
        Nat.mul_div_cancel _ (by positivity)]
    rw [UInt8.toNat_ofNat', BitVec.toNat_ofNat, hdiv, UInt64.toNat_toUInt8, UInt64.toNat_and, hshift,
      show (0xFF : UInt64).toNat = 2 ^ 8 - 1 from rfl, Nat.and_two_pow_sub_one_eq_mod, Nat.mod_mod]

/-- The inner loop appends the accepted samples up to the 512th. -/
private theorem evmSampleBlock_eq (buffer : Word) (ks : List ℕ) {output : List Word} (h : output.length < 512) :
    evmSampleBlock buffer ks output =
      (output ++ ks.filterMap fun k => sampleWord (chunkAt buffer k)).take 512 := by
  induction ks generalizing output with
  | nil =>
    rw [List.filterMap_nil, List.append_nil, List.take_of_length_le (le_of_lt h)]
    rfl
  | cons k ks ih =>
    rw [evmSampleBlock, List.filterMap_cons]
    cases sampleWord (chunkAt buffer k) with
    | none => exact ih h
    | some c =>
      simp only
      rw [List.append_cons output c (ks.filterMap fun k => sampleWord (chunkAt buffer k))]
      have hl : (output ++ [c]).length = output.length + 1 := by simp
      by_cases hfull : (output ++ [c]).length = 512
      · rw [if_pos hfull, List.take_append_of_le_length (le_of_eq hfull.symm), ← hfull, List.take_length]
      · rw [if_neg hfull]
        exact ih (by omega)

/-- A block of the outer loop: the draws `16 * k, …, 16 * k + 15` of the stream. -/
private theorem evmSampleBlock_stream (K : Crypto.Keccak256) (S : ByteVec 32) (k : ℕ) :
    (List.range 16).filterMap (fun i => sampleWord (chunkAt (ofBytes (K ((S.1 ++
      bytes (BitVec.ofNat 256 (k * 2 ^ 192))).take 40)).1) i)) =
      Sampling.accepted (fun i => wordDraws (Crypto.KeccakPrng.keystream K S) (16 * k + i)) 16 := by
  apply List.filterMap_congr
  intro i hi
  rw [List.mem_range] at hi
  have htake : (S.1 ++ bytes (BitVec.ofNat 256 (k * 2 ^ 192))).take 40 =
      S.1 ++ Crypto.KeccakPrng.counterBytes (UInt64.ofNat k) := by
    rw [← take_bytes_counter, List.take_append, S.2, List.take_of_length_le (by rw [S.2]; omega)]
  have hstream : ∀ t < 32, Crypto.KeccakPrng.keystream K S (32 * k + t) =
      rd (K (S.1 ++ Crypto.KeccakPrng.counterBytes (UInt64.ofNat k))).1 t := by
    intro t ht
    rw [Crypto.KeccakPrng.keystream, show (32 * k + t) / 32 = k by omega, show (32 * k + t) % 32 = t by omega]
  rw [sampleWord_eq, htake, toNat_chunk (K _).2 hi, wordDraws, draws, sampleAt,
    show 2 * (16 * k + i) = 32 * k + 2 * i by ring, show 32 * k + 2 * i + 1 = 32 * k + (2 * i + 1) by ring,
    hstream _ (by omega), hstream _ (by omega)]

/-- The outer loop, entered with the accepted values of the first `k` blocks. -/
private theorem evmSampleLoop_eq (K : Crypto.Keccak256) (S : ByteVec 32) (fuel k : ℕ) :
    evmSampleLoop K S fuel (BitVec.ofNat 256 (k * 2 ^ 192))
      ((Sampling.accepted (wordDraws (Crypto.KeccakPrng.keystream K S)) (16 * k)).take 512) =
    if 512 ≤ (Sampling.accepted (wordDraws (Crypto.KeccakPrng.keystream K S)) (16 * (k + fuel))).length
    then some ((Sampling.accepted (wordDraws (Crypto.KeccakPrng.keystream K S)) (16 * (k + fuel))).take 512)
    else none := by
  induction fuel generalizing k with
  | zero =>
    rw [evmSampleLoop, List.length_take, n, Nat.add_zero]
    by_cases h : 512 ≤ (Sampling.accepted (wordDraws (Crypto.KeccakPrng.keystream K S)) (16 * k)).length
    · rw [if_pos h, if_neg (by omega)]
    · rw [if_neg h, if_pos (by omega)]
  | succ fuel ih =>
    rw [evmSampleLoop, List.length_take, n]
    have hmono : 16 * k ≤ 16 * (k + (fuel + 1)) := by omega
    by_cases h : 512 ≤ (Sampling.accepted (wordDraws (Crypto.KeccakPrng.keystream K S)) (16 * k)).length
    -- the loop has ended, and further draws do not change the first 512 values
    · have hlen := (Sampling.prefix_accepted (wordDraws (Crypto.KeccakPrng.keystream K S)) hmono).length_le
      rw [if_neg (by omega), if_pos (le_trans h hlen), Sampling.take_accepted_of_le _ hmono h]
    -- the next block makes the draws `16 * k, …, 16 * k + 15`
    · have hcounter : BitVec.ofNat 256 (k * 2 ^ 192) + counterStep = BitVec.ofNat 256 ((k + 1) * 2 ^ 192) := by
        apply BitVec.eq_of_toNat_eq
        rw [BitVec.toNat_add, BitVec.toNat_ofNat, BitVec.toNat_ofNat, toNat_counterStep, Nat.mod_add_mod,
          Nat.add_mul, Nat.one_mul]
      have hnext : (Sampling.accepted (wordDraws (Crypto.KeccakPrng.keystream K S)) (16 * k)).take 512 ++
          Sampling.accepted (fun i => wordDraws (Crypto.KeccakPrng.keystream K S) (16 * k + i)) 16 =
          Sampling.accepted (wordDraws (Crypto.KeccakPrng.keystream K S)) (16 * (k + 1)) := by
        rw [List.take_of_length_le (by omega), ← Sampling.accepted_add]
        rfl
      have hfuel : k + 1 + fuel = k + (fuel + 1) := by omega
      rw [if_pos (by omega)]
      simp only
      rw [evmSampleBlock_eq _ _ (by rw [List.length_take]; omega), evmSampleBlock_stream, hnext, hcounter, ih,
        hfuel]

/-- `hashToPointEVM` returns the first accepted values of the output stream of the generator. -/
theorem hashToPointEVM_iff (K : Crypto.Keccak256) (salt msgHash : List UInt8) (xs : List Word) :
    (∃ fuel, hashToPointEVM K fuel salt msgHash = some xs) ↔
      Sampling.First (wordDraws (Crypto.KeccakPrng.keystream K (K (salt ++ msgHash)))) 512 xs := by
  rw [← Sampling.exists_take_accepted_iff _ (show 0 < 16 by omega)]
  have heq : ∀ fuel, hashToPointEVM K fuel salt msgHash = _ := fun fuel =>
    evmSampleLoop_eq K (K (salt ++ msgHash)) fuel 0
  simp only [Nat.zero_add] at heq
  constructor
  · rintro ⟨fuel, h⟩
    rw [heq] at h
    split at h
    · rename_i hle
      exact ⟨fuel, hle, Option.some.inj h⟩
    · exact absurd h (by simp)
  · rintro ⟨fuel, hle, rfl⟩
    exact ⟨fuel, by rw [heq, if_pos hle]⟩

/-! ### The SHAKE256 loop -/

/-- The state of the output loop after `d` draws: `j` bytes of the block `k` are used up. -/
def NistAt (f : Lanes → Lanes) (A : Lanes) (d : ℕ) (st : CtxShake × List UInt8 × ℕ) : Prop :=
  ∃ k j, 2 * d = 136 * k + j ∧ j ≤ 136 ∧ st = (⟨f^[k + 2] A, fun _ => 0, 0, false⟩,
    (List.range' (136 * k) 136).map (Sponge.stream f getByte 136 A), j)

/-- A squeezed block is a block of the stream. -/
private theorem shakeSqueeze_stream (f : Lanes → Lanes) (A : Lanes) (k : ℕ) :
    shakeSqueeze f ⟨f^[k + 1] A, fun _ => 0, 0, false⟩ 136 = (⟨f^[k + 2] A, fun _ => 0, 0, false⟩,
      (List.range' (136 * k) 136).map (Sponge.stream f getByte 136 A)) := by
  have hblock := Sponge.stream_block f getByte (show 0 < 136 by omega) A (p := 136 * k) (k := 136) (by omega)
  rw [Nat.mul_mod_right, Nat.mul_div_cancel_left k (show 0 < 136 by omega)] at hblock
  simp only [Nat.zero_add] at hblock
  rw [shakeSqueeze_rate, hblock, ← Function.iterate_succ_apply' f]

private theorem toNat_dibytes (b0 b1 : UInt8) :
    (BitVec.ofNat 256 b1.toNat + (BitVec.ofNat 256 b0.toNat <<< 8)).toNat = b0.toNat * 256 + b1.toNat := by
  have h0 := b0.toNat_lt
  have h1 := b1.toNat_lt
  rw [BitVec.toNat_add, BitVec.toNat_shiftLeft, BitVec.toNat_ofNat, BitVec.toNat_ofNat, Nat.shiftLeft_eq]
  omega

/-- One round draws the next two bytes of the stream. -/
theorem NistAt.next {f : Lanes → Lanes} {A : Lanes} {d : ℕ} {st : CtxShake × List UInt8 × ℕ}
    (h : NistAt f A d st) : sampleWord (nistNext f st).1 = wordDraws (Sponge.stream f getByte 136 A) d ∧
      NistAt f A (d + 1) (nistNext f st).2 := by
  obtain ⟨k, j, hd, hj, rfl⟩ := h
  -- the block and the position after a possible refill
  obtain ⟨k', j', hd', hj', hst⟩ : ∃ k' j', 2 * d = 136 * k' + j' ∧ j' < 136 ∧
      nistNext f (⟨f^[k + 2] A, fun _ => 0, 0, false⟩,
        (List.range' (136 * k) 136).map (Sponge.stream f getByte 136 A), j) =
      (BitVec.ofNat 256 (rd ((List.range' (136 * k') 136).map (Sponge.stream f getByte 136 A)) (j' + 1)).toNat +
        (BitVec.ofNat 256 (rd ((List.range' (136 * k') 136).map (Sponge.stream f getByte 136 A)) j').toNat <<< 8),
        ⟨f^[k' + 2] A, fun _ => 0, 0, false⟩,
        (List.range' (136 * k') 136).map (Sponge.stream f getByte 136 A), j' + 2) := by
    by_cases h : j = 136
    · refine ⟨k + 1, 0, by omega, by omega, ?_⟩
      rw [nistNext, if_pos h, shakeSqueeze_stream]
    · refine ⟨k, j, hd, by omega, ?_⟩
      rw [nistNext, if_neg h]
  have hrd : ∀ t < 136, rd ((List.range' (136 * k') 136).map (Sponge.stream f getByte 136 A)) t =
      Sponge.stream f getByte 136 A (136 * k' + t) := by
    intro t ht
    have hl : t < (List.range' (136 * k') 136).length := by rw [List.length_range']; exact ht
    rw [rd_map _ hl, rd_eq_getElem hl, List.getElem_range', Nat.one_mul]
  rw [hst]
  constructor
  · rw [sampleWord_eq, toNat_dibytes, hrd j' hj', hrd (j' + 1) (by omega), wordDraws, draws, sampleAt, hd',
      Nat.add_assoc]
  · exact ⟨k', j' + 2, by omega, by omega, rfl⟩

/-- `hashToPointNIST` returns the first accepted values of the SHAKE256 output for the concatenated input. -/
theorem hashToPointNIST_iff (f : Lanes → Lanes) (salt msgHash : List UInt8) (xs : List Word) :
    (∃ fuel, hashToPointNIST f fuel salt msgHash = some xs) ↔
      Sampling.First (wordDraws (Crypto.Shake256.keystream f (salt ++ msgHash))) 512 xs := by
  have hpad := shakePad_shakeUpdate f (salt ++ msgHash)
  simp only [hashToPointNIST, hpad]
  refine Sampling.collect_iff (I := NistAt f (xorByte (xorByte (Crypto.Shake256.absorbed f (salt ++ msgHash)).1
    (Crypto.Shake256.absorbed f (salt ++ msgHash)).2 0x1F) 135 0x80)) (fun d st h => h.next) ?_ xs
  have h0 := shakeSqueeze_stream f (xorByte (xorByte (Crypto.Shake256.absorbed f (salt ++ msgHash)).1
    (Crypto.Shake256.absorbed f (salt ++ msgHash)).2 0x1F) 135 0x80) 0
  rw [Function.iterate_one] at h0
  rw [h0]
  exact ⟨0, 0, rfl, by omega, rfl⟩

end DfVrf.Contracts
