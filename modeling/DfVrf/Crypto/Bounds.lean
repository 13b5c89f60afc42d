import DfVrf.Crypto.FixedCodec

/-!
# The decoders in bounded memory (`codec.c`, `epervier16.c`)

Memory is a partial function, and a decoder that reads outside of it, or writes behind the end of the array of
coefficients, has no result.  Within bounds the decoders are those of the codecs (`compDecodeIn_eq`,
`fixedDecodeIn_eq`); `compDecodeIn_of_lt` says when the array of coefficients overflows.
-/

namespace DfVrf.Crypto

open InPlace

/-- The memory that holds a byte string and nothing else. -/
def within (bs : List UInt8) (i : ℕ) : Option UInt8 := bs[i]?

theorem within_eq {bs : List UInt8} {i : ℕ} (h : i < bs.length) : within bs i = some (rd bs i) := by
  rw [within, rd_eq_getElem h, List.getElem?_eq_getElem h]

theorem within_eq_none {bs : List UInt8} {i : ℕ} (h : bs.length ≤ i) : within bs i = none :=
  List.getElem?_eq_none h

/-! ### The compressed encoding -/

/-- `acc = (acc << 8) | buf[v ++]`, as `Reader.load`. -/
def Reader.loadIn (mem : ℕ → Option UInt8) (r : Reader) (accLen : ℕ) : Option Reader :=
  (mem r.v).map fun b => ⟨(r.acc <<< 8) ||| b.toUInt32, accLen, r.v + 1⟩

/-- The loop of `comp_decode` that reads bits until a one, as `compDecodeUnary`. -/
def compDecodeUnaryIn (mem : ℕ → Option UInt8) (maxInLen : ℕ) : ℕ → Reader → UInt32 → Option (Option (Reader × UInt32))
  | 0, _, _ => some none
  | fuel + 1, r, m =>
    if r.accLen = 0 ∧ r.v ≥ maxInLen then some none
    else
      (if r.accLen = 0 then r.loadIn mem 8 else some r).bind fun r =>
        let r := { r with accLen := r.accLen - 1 }
        if (r.acc >>> UInt32.ofNat r.accLen) &&& 1 ≠ 0 then some (some (r, m))
        else
          let m := m + 128
          if m > 2047 then some none else compDecodeUnaryIn mem maxInLen fuel r m

/-- One iteration of the outer loop of `comp_decode`, as `compDecodeCoeff`. -/
def compDecodeCoeffIn (mem : ℕ → Option UInt8) (maxInLen : ℕ) (r : Reader) : Option (Option (Int16 × Reader)) :=
  if r.v ≥ maxInLen then some none
  else
    (r.loadIn mem r.accLen).bind fun r =>
      let b := r.acc >>> UInt32.ofNat r.accLen
      let s := b &&& 128
      let m := b &&& 127
      (compDecodeUnaryIn mem maxInLen 16 r m).map fun t => t.bind fun t =>
        let m := t.2
        if s ≠ 0 ∧ m = 0 then none
        else some ((if s ≠ 0 then -m.toInt32 else m.toInt32).toInt16, t.1)

/-- The outer loop of `comp_decode` for `n` coefficients, the first of which is stored at the index `u` of an array of
`capacity` coefficients. -/
def compDecodeLoopIn (mem : ℕ → Option UInt8) (maxInLen capacity : ℕ) :
    ℕ → ℕ → Reader → Option (Option (List Int16 × Reader))
  | 0, _, r => some (some ([], r))
  | n + 1, u, r =>
    (compDecodeCoeffIn mem maxInLen r).bind fun
      | none => some none
      | some (x, r) =>
        if u ≥ capacity then none
        else (compDecodeLoopIn mem maxInLen capacity n (u + 1) r).map fun t => t.map fun t => (x :: t.1, t.2)

/-- `comp_decode`, reading from `mem` and writing to an array of `capacity` coefficients; `none` if an access is out of
bounds, and `some none` where the code returns zero. -/
def compDecodeIn (mem : ℕ → Option UInt8) (maxInLen capacity logn : ℕ) : Option (Option (List Int16 × ℕ)) :=
  (compDecodeLoopIn mem maxInLen capacity (1 <<< logn) 0 ⟨0, 0, 0⟩).map fun t => t.bind fun t =>
    let r := t.2
    if r.acc &&& ((1 <<< UInt32.ofNat r.accLen) - 1) ≠ 0 then none else some (t.1, r.v)

/-- The result of the loop with the test of the unused bits. -/
private theorem compDecode_eq_bind (logn : ℕ) (buf : List UInt8) :
    compDecode logn buf = (compDecodeLoop buf (2 ^ logn) ⟨0, 0, 0⟩).bind fun t =>
      if t.2.acc &&& ((1 <<< UInt32.ofNat t.2.accLen) - 1) ≠ 0 then none else some (t.1, t.2.v) := by
  rw [compDecode, Nat.shiftLeft_eq, one_mul]
  cases compDecodeLoop buf (2 ^ logn) ⟨0, 0, 0⟩ with
  | none => rfl
  | some p => rfl

section Decoder

variable {mem : ℕ → Option UInt8} {buf : List UInt8} (hmem : ∀ i < buf.length, mem i = some (rd buf i))
include hmem

private theorem Reader.loadIn_eq {r : Reader} (hv : r.v < buf.length) (accLen : ℕ) :
    r.loadIn mem accLen = some (r.load buf accLen) := by
  rw [Reader.loadIn, hmem r.v hv, Option.map_some, Reader.load]

private theorem compDecodeUnaryIn_eq (fuel : ℕ) (r : Reader) (m : UInt32) :
    compDecodeUnaryIn mem buf.length fuel r m = some (compDecodeUnary buf fuel r m) := by
  induction fuel generalizing r m with
  | zero => rfl
  | succ fuel ih =>
    unfold compDecodeUnaryIn compDecodeUnary
    by_cases hend : r.accLen = 0 ∧ r.v ≥ buf.length
    · rw [if_pos hend, if_pos hend]
    · have hload : (if r.accLen = 0 then r.loadIn mem 8 else some r) =
          some (if r.accLen = 0 then r.load buf 8 else r) := by
        by_cases h0 : r.accLen = 0
        · rw [if_pos h0, if_pos h0, Reader.loadIn_eq hmem (by omega)]
        · rw [if_neg h0, if_neg h0]
      rw [if_neg hend, if_neg hend, hload, Option.bind_some]
      generalize (if r.accLen = 0 then r.load buf 8 else r) = r1
      simp only [ih]
      by_cases hbit : (r1.acc >>> UInt32.ofNat (r1.accLen - 1)) &&& 1 ≠ 0
      · rw [if_pos hbit, if_pos hbit]
      · rw [if_neg hbit, if_neg hbit]
        by_cases hm : m + 128 > 2047
        · rw [if_pos hm, if_pos hm]
        · rw [if_neg hm, if_neg hm]

private theorem compDecodeCoeffIn_eq (r : Reader) :
    compDecodeCoeffIn mem buf.length r = some (compDecodeCoeff buf r) := by
  unfold compDecodeCoeffIn compDecodeCoeff
  by_cases hend : r.v ≥ buf.length
  · rw [if_pos hend, if_pos hend]
  · rw [if_neg hend, if_neg hend, Reader.loadIn_eq hmem (by omega), Option.bind_some]
    simp only [compDecodeUnaryIn_eq hmem, Option.map_some]
    cases compDecodeUnary buf 16 (r.load buf r.accLen)
        ((r.load buf r.accLen).acc >>> UInt32.ofNat (r.load buf r.accLen).accLen &&& 127) with
    | none => rfl
    | some p => rfl

/-- The loop leaves the array exactly if it decodes one coefficient more than the array holds. -/
private theorem compDecodeLoopIn_eq {capacity n u : ℕ} (hu : u ≤ capacity) (r : Reader) :
    compDecodeLoopIn mem buf.length capacity n u r =
      if capacity < u + n ∧ (compDecodeLoop buf (capacity + 1 - u) r).isSome then none
      else some (compDecodeLoop buf n r) := by
  induction n generalizing u r with
  | zero => rw [if_neg (by omega), compDecodeLoopIn, compDecodeLoop]
  | succ n ih =>
    rw [compDecodeLoopIn, compDecodeCoeffIn_eq hmem, Option.bind_some,
      show capacity + 1 - u = capacity - u + 1 by omega, compDecodeLoop, compDecodeLoop]
    cases hc : compDecodeCoeff buf r with
    | none => simp
    | some p =>
      obtain ⟨x, r'⟩ := p
      simp only [Option.isSome_map]
      by_cases hlast : u ≥ capacity
      · have h0 : capacity - u = 0 := by omega
        rw [if_pos hlast, h0, if_pos ⟨by omega, rfl⟩]
      · rw [if_neg hlast, ih (by omega), show capacity + 1 - (u + 1) = capacity - u by omega,
          show u + 1 + n = u + (n + 1) by omega]
        split <;> rfl

/-- Within bounds the decoder is the one of the codec. -/
theorem compDecodeIn_eq {capacity logn : ℕ} (hc : 2 ^ logn ≤ capacity) :
    compDecodeIn mem buf.length capacity logn = some (compDecode logn buf) := by
  have hn : 1 <<< logn = 2 ^ logn := by rw [Nat.shiftLeft_eq, one_mul]
  rw [compDecodeIn, compDecodeLoopIn_eq hmem (Nat.zero_le _), if_neg (by rw [hn]; omega), Option.map_some,
    compDecode_eq_bind, hn]

/-- An array that is too small overflows exactly if one coefficient more than it holds can be decoded; otherwise the
decoder fails within bounds. -/
theorem compDecodeIn_of_lt {capacity logn : ℕ} (hc : capacity < 2 ^ logn) :
    compDecodeIn mem buf.length capacity logn =
      if (compDecodeLoop buf (capacity + 1) ⟨0, 0, 0⟩).isSome then none else some (compDecode logn buf) := by
  have hn : 1 <<< logn = 2 ^ logn := by rw [Nat.shiftLeft_eq, one_mul]
  rw [compDecodeIn, compDecodeLoopIn_eq hmem (Nat.zero_le _), Nat.sub_zero, hn]
  by_cases h : (compDecodeLoop buf (capacity + 1) ⟨0, 0, 0⟩).isSome = true
  · rw [if_pos ⟨by omega, h⟩, if_pos h, Option.map_none]
  · rw [if_neg (fun hc => h hc.2), if_neg h, Option.map_some, compDecode_eq_bind]

end Decoder

/-! ### Encodings with a fixed number of bits -/

variable {β : Type*}

/-- The loop of a decoder over `k` bytes from the index `i` on, as `fixedDecodeLoop`. -/
def fixedDecodeLoopIn (mem : ℕ → Option UInt8) (n bits : ℕ) (coeff : UInt32 → Option β) :
    ℕ → ℕ → UInt32 → ℕ → List β → Option (Option (UInt32 × ℕ × List β))
  | 0, _, acc, accLen, x => some (if x.length < n then none else some (acc, accLen, x))
  | k + 1, i, acc, accLen, x =>
    if x.length < n then
      (mem i).bind fun b =>
        let acc := (acc <<< 8) ||| b.toUInt32
        let accLen := accLen + 8
        match fixedTake n bits coeff accLen acc accLen x with
        | none => some none
        | some (accLen, x) => fixedDecodeLoopIn mem n bits coeff k (i + 1) acc accLen x
    else some (some (acc, accLen, x))

/-- A decoder that reads from `mem`, as `fixedDecode`; `none` if a read is out of bounds. -/
def fixedDecodeIn (mem : ℕ → Option UInt8) (maxInLen logn bits : ℕ) (coeff : UInt32 → Option β) :
    Option (Option (List β × ℕ)) :=
  let n := 1 <<< logn
  let inLen := ((n * bits) + 7) >>> 3
  if inLen > maxInLen then some none
  else
    (fixedDecodeLoopIn mem n bits coeff inLen 0 0 0 []).map fun t => t.bind fun t =>
      if t.1 &&& ((1 <<< UInt32.ofNat t.2.1) - 1) ≠ 0 then none else some (t.2.2, inLen)

private theorem fixedDecodeLoopIn_eq {mem : ℕ → Option UInt8} (n bits : ℕ) (coeff : UInt32 → Option β) {bs : List UInt8}
    {i : ℕ} (hmem : ∀ j < bs.length, mem (i + j) = some (rd bs j)) (acc : UInt32) (accLen : ℕ) (x : List β) :
    fixedDecodeLoopIn mem n bits coeff bs.length i acc accLen x =
      some (fixedDecodeLoop n bits coeff bs acc accLen x) := by
  induction bs generalizing i acc accLen x with
  | nil => rfl
  | cons b bs ih =>
    have hb : mem i = some b := hmem 0 (Nat.succ_pos _)
    have hnext : ∀ j < bs.length, mem (i + 1 + j) = some (rd bs j) := by
      intro j hj
      rw [show i + 1 + j = i + (j + 1) by omega]
      exact hmem (j + 1) (Nat.succ_lt_succ hj)
    rw [List.length_cons, fixedDecodeLoopIn, fixedDecodeLoop, hb, Option.bind_some]
    by_cases hx : x.length < n
    · rw [if_pos hx, if_pos hx]
      simp only
      cases fixedTake n bits coeff (accLen + 8) (acc <<< 8 ||| b.toUInt32) (accLen + 8) x with
      | none => rfl
      | some p => exact ih hnext _ _ _
    · rw [if_neg hx, if_neg hx]

/-- If the bytes of the encoding can be read, the decoder is the one of the codec. -/
theorem fixedDecodeIn_eq {mem : ℕ → Option UInt8} {logn bits : ℕ} (coeff : UInt32 → Option β) {buf : List UInt8}
    (hmem : ∀ i < ((1 <<< logn) * bits + 7) >>> 3, mem i = some (rd buf i)) :
    fixedDecodeIn mem buf.length logn bits coeff = some (fixedDecode logn bits coeff buf) := by
  rw [fixedDecodeIn, fixedDecode]
  generalize ((1 <<< logn) * bits + 7) >>> 3 = inLen at hmem ⊢
  by_cases hlen : inLen > buf.length
  · rw [if_pos hlen, if_pos hlen]
  · have htake : (buf.take inLen).length = inLen := by
      rw [List.length_take]
      omega
    have hread : ∀ j < (buf.take inLen).length, mem (0 + j) = some (rd (buf.take inLen) j) := by
      intro j hj
      rw [htake] at hj
      rw [Nat.zero_add, hmem j hj, rd_take hj]
    have hloop := fixedDecodeLoopIn_eq (1 <<< logn) bits coeff hread 0 0 []
    rw [htake] at hloop
    rw [if_neg hlen, if_neg hlen, hloop, Option.map_some]
    cases fixedDecodeLoop (1 <<< logn) bits coeff (buf.take inLen) 0 0 [] with
    | none => rfl
    | some p => rfl

end DfVrf.Crypto
