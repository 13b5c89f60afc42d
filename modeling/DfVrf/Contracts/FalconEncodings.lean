import DfVrf.Contracts.FalconUtils

/-!
# Decompression of signatures on chain (`DFVRF_falcon_encodings.sol`)

The contract reads memory without asking for the length of the buffer.  What is behind the buffer is a parameter, for
each coefficient, since the array of coefficients that is being filled may be there.
-/

namespace DfVrf.Contracts

open InPlace Word

/-- The bound on the number of bytes of an encoding. -/
def maxInLen : ℕ := 666

/-- The accumulator, the number of its unread bits, and the next index. -/
structure WordReader where
  acc : Word
  accLen : ℕ
  v : ℕ

/-- `acc := or(shl(8, acc), byte(0, mload(add(add(buf, 32), v))))`, with `accLen` as the new number of unread bits. -/
def WordReader.load (mem : ℕ → UInt8) (r : WordReader) (accLen : ℕ) : WordReader :=
  ⟨(r.acc <<< 8) ||| BitVec.ofNat 256 (mem r.v).toNat, accLen, r.v + 1⟩

/-- The inner loop, which reads bits until a one; `m` grows by 128 for every zero, and above 2047 the call reverts, so
that 16 rounds are enough for an `m` below 128. -/
def decompressUnary (mem : ℕ → UInt8) : ℕ → WordReader → Word → Except String (WordReader × Word)
  | 0, _, _ => .error "coeff to big"
  | fuel + 1, r, m =>
    let r := if r.accLen = 0 then r.load mem 8 else r
    let r := { r with accLen := r.accLen - 1 }
    if (r.acc >>> r.accLen) &&& 1 ≠ 0 then .ok (r, m)
    else
      let m := m + 128
      if m > 2047 then .error "coeff to big" else decompressUnary mem fuel r m

/-- One iteration of the loop over the coefficients. -/
def decompressCoeff (mem : ℕ → UInt8) (r : WordReader) : Except String (Word × WordReader) :=
  let r := r.load mem r.accLen
  let b := r.acc >>> r.accLen
  let s := b &&& 128
  let m := b &&& 127
  (decompressUnary mem 16 r m).map fun t => (if s = 0x80 then q - t.2 else t.2, t.1)

/-- The loop over `k` coefficients from the index `u` on. -/
def decompressLoop (mem : ℕ → ℕ → UInt8) : ℕ → ℕ → WordReader → Except String (List Word × WordReader)
  | 0, _, r => .ok ([], r)
  | k + 1, u, r =>
    (decompressCoeff (mem u) r).bind fun t =>
      (decompressLoop mem k (u + 1) t.2).map fun ts => (t.1 :: ts.1, ts.2)

/-- `_decompress_sig`; an error is the data with which the call reverts.  The memory behind the buffer is `beyond u`
while the coefficient `u` is read. -/
def decompressSig (buf : List UInt8) (beyond : ℕ → ℕ → UInt8) (offset : ℕ) : Except String (List Word) :=
  let mem u i := if i < buf.length then rd buf i else beyond u (i - buf.length)
  (decompressLoop mem n 0 ⟨0, 0, offset⟩).bind fun t =>
    if t.2.v - offset ≥ maxInLen then .error "too long" else .ok t.1

end DfVrf.Contracts
